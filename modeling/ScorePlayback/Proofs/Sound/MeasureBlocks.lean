import ScorePlayback.Proofs.Analysis.MeasuredTime

/-! # The events of a measure stand together

Events are in the order of time and not of measures. But if no note of a chord lasts longer than the
first one, everything in a measure is over at its barline. So the events of one instrument are in
the order of measures, too, and the measure index delimits the events of each measure. -/

namespace ScorePlayback

variable {follows : Nat → Bool}

/-! ## Chords -/

section

variable {τ : Type}

/-- A note or rest that is no later note of a chord. -/
def StaffObject.leads (follows : Nat → Bool) (object : StaffObject τ) : Bool :=
  object.symbol.note?.any fun number => !follows number

/-- A later note of a chord. -/
def StaffObject.trails (follows : Nat → Bool) (object : StaffObject τ) : Bool :=
  object.symbol.note?.any follows

theorem StaffObject.leads_iff {object : StaffObject τ} : object.leads follows = true ↔
    ∃ number, object.symbol = .noteRest number ∧ follows number = false := by
  simp [leads, Option.any_eq_true, StaffSymbol.note?_eq_some_iff]

theorem StaffObject.trails_iff {object : StaffObject τ} : object.trails follows = true ↔
    ∃ number, object.symbol = .noteRest number ∧ follows number = true := by
  simp [trails, Option.any_eq_true, StaffSymbol.note?_eq_some_iff]

/-- The first note of the chord that has its later notes behind the given objects. -/
def leadOf (follows : Nat → Bool) (front : List (StaffObject τ)) : Option (StaffObject τ) :=
  (front.filter (StaffObject.leads follows)).getLast?

theorem mem_of_mem_leadOf {front : List (StaffObject τ)} {lead : StaffObject τ}
    (h : lead ∈ leadOf follows front) : lead ∈ front ∧ lead.leads follows = true :=
  List.mem_filter.mp (List.mem_of_getLast? h)

theorem leadOf_append_cons {front others : List (StaffObject τ)} {lead : StaffObject τ}
    (hlead : lead.leads follows = true) (hothers : ∀ other ∈ others, other.leads follows = false) :
    leadOf follows (front ++ lead :: others) = some lead := by
  have hnone : others.filter (StaffObject.leads follows) = [] :=
    List.filter_eq_nil_iff.mpr fun other hother => by simp [hothers other hother]
  rw [leadOf, List.filter_append, List.filter_cons_of_pos hlead, hnone, List.getLast?_concat]

end

/-- No note of a chord lasts longer than the first one. -/
def Score.ChordsFit (score : Score Rat) : Prop :=
  ∀ i ∈ score.instruments, ∀ entry ∈ i.timeline.zipIdx, entry.1.trails score.follows = true →
    ∀ lead ∈ leadOf score.follows (i.timeline.take entry.2), entry.1.duration ≤ lead.duration

instance (score : Score Rat) : Decidable score.ChordsFit :=
  inferInstanceAs (Decidable (∀ _ ∈ _, _))

/-- A later note of a chord starts with the first one and is in its measure. -/
def Part.LeadsChords (follows : Nat → Bool) (p : Part Rat) : Prop :=
  EachAfter (fun front object => object.trails follows = true →
    ∃ lead ∈ leadOf follows front, lead.time = object.time ∧ lead.measure = object.measure)
      p.timeline

namespace Part.LeadsChords

variable {p p' : Part Rat}

theorem place (h : p.LeadsChords follows) {object : StaffObject Rat}
    (hobject : ∀ number, object.symbol ≠ .noteRest number)
    (ht : p'.timeline = p.timeline ++ [object]) : p'.LeadsChords follows := by
  unfold LeadsChords
  rw [ht]
  refine h.append (.singleton fun htrails => ?_)
  obtain ⟨number, hsymbol, -⟩ := StaffObject.trails_iff.mp htrails
  exact absurd hsymbol (hobject number)

theorem sound (h : p.LeadsChords follows) {lead : StaffObject Rat}
    {others : List (StaffObject Rat)} (hlead : lead.Sounds follows p.cursor false)
    (hothers : ∀ other ∈ others, other.Sounds follows p.cursor true)
    (ht : p'.timeline = p.timeline ++ lead :: others) : p'.LeadsChords follows := by
  have hleads : lead.leads follows = true := StaffObject.leads_iff.mpr hlead.symbol
  have htrail : ∀ other ∈ others, other.leads follows = false := fun other hother => by
    obtain ⟨number, hsymbol, hfollows⟩ := (hothers other hother).symbol
    simp [StaffObject.leads, hsymbol, StaffSymbol.note?, hfollows]
  unfold LeadsChords
  rw [ht]
  refine h.append fun k object hobject htrails => ?_
  cases k with
  | zero =>
      obtain rfl := Option.some.inj hobject
      obtain ⟨number, hsymbol, hfollows⟩ := hlead.symbol
      simp [StaffObject.trails, hsymbol, StaffSymbol.note?, hfollows] at htrails
  | succ k =>
      have hother := hothers object (List.mem_of_getElem? hobject)
      refine ⟨lead, leadOf_append_cons hleads fun other hmem => ?_, ?_, ?_⟩
      · exact htrail other (List.mem_of_mem_take hmem)
      · exact hlead.time.trans hother.time.symm
      · exact hlead.measure.trans hother.measure.symm

theorem of_steps (h : MusicSteps follows .initial p) : p.LeadsChords follows := by
  induction h with
  | refl => exact nofun
  | tail _ hstep ih =>
      cases hstep with
      | move ht _ =>
          unfold LeadsChords
          rw [ht]
          exact ih
      | mark object hobject ht _ => exact ih.place hobject.symbol ht
      | sound lead others hlead hothers ht _ => exact ih.sound hlead hothers ht
      | close shape times object hclose _ =>
          exact ih.place (fun number hnumber => by simp [hclose.symbol] at hnumber) hclose.timeline

end Part.LeadsChords

/-! ## Objects of earlier measures are over -/

/-- The objects on a timeline are where the steps of the music have placed them, and no note of a
chord lasts longer than the first one. -/
structure Part.Fits (follows : Nat → Bool) (p : Part Rat) : Prop extends p.IsMeasured follows where
  chords : p.LeadsChords follows
  fit : ∀ entry ∈ p.timeline.zipIdx, entry.1.trails follows = true →
    ∀ lead ∈ leadOf follows (p.timeline.take entry.2), entry.1.duration ≤ lead.duration

namespace Part.Fits

variable {p : Part Rat}

/-- An object of an earlier measure has ended, though it may be a later note of a chord. -/
theorem finish_le (h : p.Fits follows) {a b : StaffObject Rat} {j k : Nat}
    (ha : p.timeline[j]? = some a) (hb : p.timeline[k]? = some b)
    (hmeasure : a.measure < b.measure) : a.finish ≤ b.time := by
  have hends := (h.before_of_measure_lt ha hb hmeasure).2
  cases hsymbol : a.symbol with
  | noteRest number =>
      cases hfollows : follows number with
      | false => exact hends.finish_le number hsymbol hfollows
      | true =>
          have htrails : a.trails follows = true :=
            StaffObject.trails_iff.mpr ⟨number, hsymbol, hfollows⟩
          obtain ⟨lead, hlead, htime, hlmeasure⟩ := h.chords j a ha htrails
          have hduration : a.duration ≤ lead.duration :=
            h.fit (a, j) (List.mem_zipIdx_iff_getElem?.mpr ha) htrails lead hlead
          obtain ⟨hmem, hleads⟩ := mem_of_mem_leadOf hlead
          obtain ⟨number', hsymbol', hfollows'⟩ := StaffObject.leads_iff.mp hleads
          obtain ⟨i, hi⟩ := List.getElem?_of_mem (List.mem_of_mem_take hmem)
          calc a.finish ≤ lead.finish := add_le_add htime.ge hduration
            _ ≤ b.time := (h.before_of_measure_lt hi hb (hlmeasure ▸ hmeasure)).2.finish_le
              number' hsymbol' hfollows'
  | _ =>
      have hduration : a.duration = 0 := by
        simpa [hsymbol, StaffSymbol.takesTime] using (h.placed a (List.mem_of_getElem? ha)).timed.2
      rw [StaffObject.finish, hduration, add_zero]
      exact hends.time_le

end Part.Fits

/-! ## Events in the order of measures -/

section

variable {score : Score Rat} {i : Instrument Rat} {p : Part Rat}

theorem Score.Holds.of_single {i' : Instrument Rat} {ref : ObjectRef} {object : StaffObject Rat}
    (hi : score.instruments = [i]) (h : score.Holds ref i' object) :
    ref.instrument = 0 ∧ i.timeline[ref.index]? = some object := by
  have hinstrument := h.instrument
  rw [hi] at hinstrument
  obtain ⟨hlt, rfl⟩ := List.getElem?_eq_some_iff.mp hinstrument
  have hzero : ref.instrument = 0 := Nat.lt_one_iff.mp hlt
  simp only [hzero, List.getElem_cons_zero] at h
  exact ⟨hzero, h.object⟩

/-- What an event of the only instrument has from its object. -/
theorem exists_object_of_mem_partEvents (hi : score.instruments = [i]) {e : SoundEvent Rat}
    (he : e ∈ partEvents score) : ∃ index object, i.timeline[index]? = some object ∧
      e.object = some ⟨0, index⟩ ∧ e.measure = object.measure ∧
      ((e.kind.isRelease = false ∧ e.time = object.time) ∨
        (e.kind.isRelease = true ∧ e.time = object.finish ∧
          ∃ number, object.symbol = .noteRest number)) := by
  obtain ⟨⟨instrument, index⟩, _, object, hholds, he⟩ := mem_partEvents.mp he
  obtain ⟨rfl, hobject⟩ := hholds.of_single hi
  refine ⟨index, object, hobject, object_of_mem_objectEvents he, ?_⟩
  rcases exists_of_mem_objectEvents he with
    ⟨kind, _, _, hkind, rfl⟩ | ⟨number, kind, _, hsymbol, hkind, rfl⟩
  · exact ⟨rfl, .inl ⟨EventKind.isRelease_eq_false hkind, rfl⟩⟩
  · exact ⟨rfl, .inr ⟨hkind, rfl, number, hsymbol⟩⟩

theorem Score.EmittedBefore.standsBefore {j k : Nat} {a b : StaffObject Rat}
    (hi : score.instruments = [i]) (h : score.EmittedBefore ⟨0, j⟩ ⟨0, k⟩)
    (ha : i.timeline[j]? = some a) (hb : i.timeline[k]? = some b) :
    StaffObject.StandsBefore (a, j) (b, k) := by
  rcases h with hlt | ⟨-, _, a', b', ha', hb', hbefore⟩
  · exact absurd hlt (Nat.lt_irrefl 0)
  · obtain rfl := Option.some.inj (ha.symm.trans (ha'.of_single hi).2)
    obtain rfl := Option.some.inj (hb.symm.trans (hb'.of_single hi).2)
    exact hbefore

/-- An event does not follow one of a later measure. Their times would be the same, and then
releases come first and other events keep the order of their objects. -/
theorem pairwise_measure_partEvents (hi : score.instruments = [i]) (h : p.Fits score.follows)
    (htimeline : i.timeline = p.timeline) :
    (inEventOrder (partEvents score)).Pairwise fun x y => x.measure ≤ y.measure := by
  refine ((inEventOrder_pairwise _).and (inEventOrder_partEvents_pairwise score)).imp_of_mem ?_
  intro x y hx hy ⟨⟨htime, hrelease⟩, hemission⟩
  obtain ⟨j, a, ha, hxobject, hxmeasure, hxcases⟩ :=
    exists_object_of_mem_partEvents hi (mem_inEventOrder.mp hx)
  obtain ⟨k, b, hb, hyobject, hymeasure, hycases⟩ :=
    exists_object_of_mem_partEvents hi (mem_inEventOrder.mp hy)
  have ha' : p.timeline[j]? = some a := htimeline ▸ ha
  have hb' : p.timeline[k]? = some b := htimeline ▸ hb
  rw [hxmeasure, hymeasure]
  by_contra hlt
  have hover : b.finish ≤ a.time := h.finish_le hb' ha' (not_le.mp hlt)
  have hytime : y.time ≤ a.time := by
    rcases hycases with ⟨-, hytime⟩ | ⟨-, hytime, -⟩
    · have hbtimed := (h.placed b (List.mem_of_getElem? hb')).timed
      exact hytime ▸ hbtimed.le_finish.trans hover
    · exact hytime ▸ hover
  rcases hxcases with ⟨hxkind, hxtime⟩ | ⟨-, hxtime, number, hsymbol⟩
  · have hsame : x.time = y.time := le_antisymm htime (hxtime ▸ hytime)
    have hykind : y.kind.isRelease = false := by
      by_contra hykind
      have hxrelease := hrelease hsame (Bool.eq_true_of_not_eq_false hykind)
      simp [hxkind] at hxrelease
    have hbefore := hemission hsame (hxkind.trans hykind.symm) _ hxobject _ hyobject
    exact hlt (h.measure_le_of_standsBefore ha' hb' (hbefore.standsBefore hi ha hb))
  · have hlater := (h.placed a (List.mem_of_getElem? ha')).timed.lt_finish hsymbol
    exact absurd (hxtime ▸ htime) (not_le.mpr (hytime.trans_lt hlater))

theorem isTimed_of_fits (hi : score.instruments = [i]) (h : p.Fits score.follows)
    (htimeline : i.timeline = p.timeline) : score.IsTimed := by
  unfold Score.IsTimed
  rw [hi, List.forall_mem_singleton, htimeline]
  exact fun object hobject => (h.placed object hobject).timed

theorem pairwise_measure_soundEvents (hi : score.instruments = [i]) (h : p.Fits score.follows)
    (htimeline : i.timeline = p.timeline) :
    (soundEvents score).Pairwise fun x y => x.measure ≤ y.measure := by
  have hinner := pairwise_measure_partEvents hi h htimeline
  refine pairwise_soundEvents (r := fun x y => x.measure ≤ y.measure) ?_
  rw [(isTimed_of_fits hi h htimeline).inEventOrder_unorderedEvents, List.pairwise_append,
    List.pairwise_append]
  refine ⟨⟨?_, hinner, ?_⟩, List.pairwise_singleton _ _, ?_⟩
  · exact List.pairwise_map.mpr (List.pairwise_of_forall fun _ _ => Nat.le_refl 0)
  · intro x hx y _
    obtain ⟨_, -, rfl⟩ := List.mem_map.mp hx
    exact Nat.zero_le _
  · intro x hx y hy
    obtain rfl := List.mem_singleton.mp hy
    rcases List.mem_append.mp hx with hx | hx
    · obtain ⟨_, -, rfl⟩ := List.mem_map.mp hx
      exact Nat.zero_le _
    · exact (measure_le_of_mem_partEvents (mem_inEventOrder.mp hx)).trans (Nat.le_succ _)

end

/-! ## The measure index -/

/-- The entry of a measure is the first event that is not in an earlier one. -/
theorem exists_measureIndex {eventMeasures : List Nat} {count last : Nat}
    (hsorted : eventMeasures.Pairwise (· ≤ ·)) (hlast : last ∈ eventMeasures)
    (hcount : count + 1 ≤ last) {measure : Nat} (hmeasure : measure ≤ count + 1) :
    ∃ first, (measureIndex eventMeasures count)[measure]? = some first ∧
      ∀ k, ∀ m ∈ eventMeasures[k]?, first ≤ k ↔ measure ≤ m := by
  have hsome : (eventMeasures.findIdx? (measure ≤ ·)).isSome := by
    rw [List.findIdx?_isSome, List.any_eq_true]
    exact ⟨last, hlast, decide_eq_true (hmeasure.trans hcount)⟩
  obtain ⟨first, hfirst⟩ := Option.isSome_iff_exists.mp hsome
  obtain ⟨hlength, hle, hbefore⟩ := List.findIdx?_eq_some_iff_getElem.mp hfirst
  refine ⟨first, ?_, fun k m hm => ?_⟩
  · rw [getElem?_measureIndex hmeasure, ← findIdx?_getD_eq, hfirst, Option.getD_some]
  · obtain ⟨hk, rfl⟩ := List.getElem?_eq_some_iff.mp hm
    constructor
    · intro hfirst
      have hfirst' : measure ≤ eventMeasures[first] := of_decide_eq_true hle
      rcases hfirst.eq_or_lt with rfl | hlt
      · exact hfirst'
      · exact hfirst'.trans (List.pairwise_iff_getElem.mp hsorted first k hlength hk hlt)
    · intro hm
      by_contra hlt
      exact hbefore k (not_le.mp hlt) (decide_eq_true hm)

/-- The events are in the order of measures, and those of each measure stand between the entry of
the measure in the index and that of the next one. -/
structure SoundTable.HasBlocks {τ : Type} (t : SoundTable τ) : Prop where
  sorted : t.events.Pairwise fun x y => x.measure ≤ y.measure
  blocks : ∀ measure ≤ t.measureCount, ∃ first next,
    t.measures[measure]? = some first ∧ t.measures[measure + 1]? = some next ∧
      ∀ k, ∀ e ∈ t.events[k]?, e.measure = measure ↔ first ≤ k ∧ k < next

theorem SoundTable.hasBlocks_of_sorted {score : Score Rat} (hscore : score.IsTimed)
    (hsorted : (soundEvents score).Pairwise fun x y => x.measure ≤ y.measure) :
    (ofScore score).HasBlocks := by
  refine ⟨hsorted, fun measure hmeasure => ?_⟩
  obtain ⟨front, last, hevents, -, hlast, -⟩ := hscore.finish_soundEvents
  have hmem : last.measure ∈ (soundEvents score).map SoundEvent.measure :=
    List.mem_map_of_mem (by simp [hevents])
  have hpairwise : ((soundEvents score).map SoundEvent.measure).Pairwise (· ≤ ·) :=
    List.pairwise_map.mpr hsorted
  obtain ⟨first, hfirst, hfirstLe⟩ :=
    exists_measureIndex hpairwise hmem hlast.ge (Nat.le_succ_of_le hmeasure)
  obtain ⟨next, hnext, hnextLe⟩ :=
    exists_measureIndex hpairwise hmem hlast.ge (Nat.succ_le_succ hmeasure)
  refine ⟨first, next, hfirst, hnext, fun k e he => ?_⟩
  have he : e.measure ∈ ((soundEvents score).map SoundEvent.measure)[k]? := by
    rw [List.getElem?_map]
    exact Option.mem_map_of_mem SoundEvent.measure he
  have hfirstLe := hfirstLe k _ he
  have hnextLe := hnextLe k _ he
  omega

/-- In a score of one instrument, where no note of a chord lasts longer than the first one, the
events of each measure stand together. -/
theorem hasBlocks_of_analyse {settings : Settings} {tree : Node} {analysis : Analysis Rat}
    (h : analyse settings tree = .ok analysis) {score : Score Rat}
    (hs : score ∈ analysis.document.scores) {i : Instrument Rat} (hi : score.instruments = [i])
    (hchords : score.ChordsFit) : (SoundTable.ofScore score).HasBlocks := by
  have hmem : i ∈ score.instruments := hi ▸ List.mem_singleton_self i
  obtain ⟨part, hsteps, htimeline⟩ := obeys_musicSteps_of_analyse h hs i hmem
  have hfits : part.Fits score.follows :=
    ⟨.of_steps hsteps, .of_steps hsteps, htimeline ▸ hchords i hmem⟩
  exact SoundTable.hasBlocks_of_sorted (isTimed_of_fits hi hfits htimeline)
    (pairwise_measure_soundEvents hi hfits htimeline)

/-- Two voices, a time signature in front of a barline, an empty measure, and a chord with a shorter
second note. -/
def fullMeasures : Node :=
  let here : Position := ⟨1, 1⟩
  let word (text : String) : Node := .atom .label text here
  let number (text : String) : Node := .atom .number text here
  let note (parts : List Node) : Node := .element .note parts here
  .element .score
    [.element .instrument [.element .music
      [note [word "c4", word "h"], .element .goBack [word "start"] here,
        note [word "e4", word "q", word "v2"], .element .rest [word "q"] here,
        .element .time [number "3", number "4"] here, .element .barline [] here,
        .element .barline [] here, .element .time [number "2", number "4"] here,
        .element .chord [note [word "g4", word "q"], note [word "d4", word "e"]] here] here]
      here] here

theorem hasBlocks_of_analyse_fullMeasures :
    ∃ analysis : Analysis Rat, analyse {} fullMeasures = .ok analysis ∧
      ∃ score ∈ analysis.document.scores, ∃ i, score.instruments = [i] ∧ score.ChordsFit ∧
        (SoundTable.ofScore score).events.map (fun e => (e.kind, e.time, e.measure)) =
          [(.programChange, 0, 0), (.noteOn, 0, 1), (.noteOn, 0, 1), (.noteOff, 64, 1),
            (.visualOn, 64, 1), (.noteOff, 128, 1), (.visualOff, 128, 1), (.rhythmChange, 128, 1),
            (.rhythmChange, 128, 3), (.noteOn, 128, 3), (.noteOn, 128, 3), (.noteOff, 160, 3),
            (.noteOff, 192, 3), (.endOfScore, 192, 4)] ∧
        (SoundTable.ofScore score).measures = [0, 1, 8, 8, 13] ∧
        (SoundTable.ofScore score).HasBlocks := by
  have h : (analyse {} fullMeasures : Except CompileError (Analysis Rat)) = .ok _ := rfl
  refine ⟨_, h, _, List.mem_singleton.mpr rfl, _, rfl, ?_⟩
  refine ⟨by decide +kernel, by decide +kernel, by decide +kernel, ?_⟩
  exact hasBlocks_of_analyse h (List.mem_singleton.mpr rfl) rfl (by decide +kernel)

end ScorePlayback
