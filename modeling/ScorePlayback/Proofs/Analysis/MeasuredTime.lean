import ScorePlayback.Proofs.Analysis.MusicSteps
import ScorePlayback.Proofs.Sound.EventOrder

/-! # Measures divide the time of an instrument

A barline stands where the longest voice ends, so all objects of its measure are over by then, and
those of the next measure start there at the earliest. Only a later note of a chord may last longer,
since the cursor moves behind the first one. -/

namespace ScorePlayback

variable {follows : Nat → Bool}

/-! ## The cursor in its measure -/

/-- The cursor is between the start of its measure and the latest time that is reached in it. -/
structure Cursor.IsWithin (c : Cursor Rat) : Prop where
  zero_le : 0 ≤ c.measureStart
  start_le : c.measureStart ≤ c.time
  le_reached : c.time ≤ c.reached

/-- The cursor is still in its measure, and what has been reached is not lost. -/
structure Cursor.GoesOn (c c' : Cursor Rat) : Prop where
  within : c'.IsWithin
  measure : c'.measure = c.measure
  start : c'.measureStart = c.measureStart
  reached : c.reached ≤ c'.reached

namespace Cursor.IsWithin

variable {c c' : Cursor Rat}

theorem initial : (Cursor.initial : Cursor Rat).IsWithin := ⟨le_rfl, le_rfl, le_rfl⟩

theorem nextMeasure (h : c.IsWithin) : c.nextMeasure.IsWithin :=
  ⟨h.zero_le.trans (h.start_le.trans h.le_reached), le_rfl, le_rfl⟩

theorem forwardTo (h : c.IsWithin) {time : Rat} (htime : c.measureStart ≤ time) :
    c.GoesOn (c.forwardTo time) := by
  have hreached : (c.forwardTo time).reached = max c.reached time := later_eq _ _
  refine ⟨⟨h.zero_le, htime, ?_⟩, rfl, rfl, ?_⟩
  · exact hreached ▸ le_max_right _ _
  · exact hreached ▸ le_max_left _ _

theorem backTo (h : c.IsWithin) {time : Rat} (htime : time ≤ c.reached) :
    c.GoesOn (c.backTo time) := by
  have hmax : (c.backTo time).time = max time c.measureStart := later_eq _ _
  refine ⟨⟨h.zero_le, ?_, ?_⟩, rfl, rfl, le_rfl⟩
  · exact hmax ▸ le_max_right _ _
  · exact hmax ▸ max_le htime (h.start_le.trans h.le_reached)

theorem goesOn (h : c.IsWithin) (hmove : CursorMove c c') : c.GoesOn c' := by
  cases hmove with
  | stay hc =>
      subst hc
      exact ⟨h, rfl, rfl, le_rfl⟩
  | back time htime hc =>
      refine hc ▸ h.backTo ?_
      rcases htime with htime | rfl
      · exact htime.trans h.le_reached
      · exact h.start_le.trans h.le_reached
  | forward time htime hc =>
      refine hc ▸ h.forwardTo ?_
      rcases htime with htime | rfl
      · exact h.start_le.trans htime
      · exact h.start_le.trans h.le_reached

end Cursor.IsWithin

/-! ## Objects and measures -/

/-- An object is over by a time, except that a later note of a chord may go on. -/
structure StaffObject.EndsBy (follows : Nat → Bool) (object : StaffObject Rat) (time : Rat) :
    Prop where
  time_le : object.time ≤ time
  time_lt : ∀ number, object.symbol = .noteRest number → object.time < time
  finish_le : ∀ number, object.symbol = .noteRest number → follows number = false →
    object.finish ≤ time

theorem StaffObject.EndsBy.mono {object : StaffObject Rat} {time time' : Rat}
    (h : object.EndsBy follows time) (hle : time ≤ time') : object.EndsBy follows time' where
  time_le := h.time_le.trans hle
  time_lt number hsymbol := (h.time_lt number hsymbol).trans_le hle
  finish_le number hsymbol hlead := (h.finish_le number hsymbol hlead).trans hle

theorem StaffObject.EndsBy.of_silent {object : StaffObject Rat} {time : Rat}
    (hsymbol : ∀ number, object.symbol ≠ .noteRest number) (htime : object.time ≤ time) :
    object.EndsBy follows time where
  time_le := htime
  time_lt number hnumber := absurd hnumber (hsymbol number)
  finish_le number hnumber := absurd hnumber (hsymbol number)

/-- Of two objects the second one is in a later measure, where the first one is over, or in the
same measure, where the first one is no barline. In front of a barline everything is over. -/
structure StaffObject.IsMeasuredBefore (follows : Nat → Bool) (a b : StaffObject Rat) : Prop where
  measure_le : a.measure ≤ b.measure
  barline : a.isBarline = true → a.measure < b.measure
  ends : a.measure < b.measure ∨ b.isBarline = true → a.EndsBy follows b.time

/-- What is known of an object when the cursor stands behind it. -/
structure StaffObject.IsBehind (follows : Nat → Bool) (c : Cursor Rat) (object : StaffObject Rat) :
    Prop where
  measure_le : object.measure ≤ c.measure
  barline : object.isBarline = true → object.measure < c.measure
  ends : object.EndsBy follows c.reached
  earlier : object.measure < c.measure → object.EndsBy follows c.measureStart

theorem StaffObject.IsBehind.goesOn {object : StaffObject Rat} {c c' : Cursor Rat}
    (h : object.IsBehind follows c) (hc : c.GoesOn c') : object.IsBehind follows c' where
  measure_le := hc.measure ▸ h.measure_le
  barline := hc.measure ▸ h.barline
  ends := h.ends.mono hc.reached
  earlier hlt := hc.start ▸ h.earlier (hc.measure ▸ hlt)

theorem StaffObject.EndsBy.isBehind_nextMeasure {object : StaffObject Rat} {c : Cursor Rat}
    (h : object.EndsBy follows c.reached) (hmeasure : object.measure ≤ c.measure) :
    object.IsBehind follows c.nextMeasure where
  measure_le := Nat.le_succ_of_le hmeasure
  barline _ := Nat.lt_succ_of_le hmeasure
  ends := h
  earlier _ := h

theorem StaffObject.IsBehind.before {a b : StaffObject Rat} {c : Cursor Rat}
    (h : a.IsBehind follows c) (hmeasure : b.measure = c.measure)
    (hstart : c.measureStart ≤ b.time) (hbarline : b.isBarline = true → b.time = c.reached) :
    a.IsMeasuredBefore follows b where
  measure_le := hmeasure ▸ h.measure_le
  barline := hmeasure ▸ h.barline
  ends := by
    rintro (hlt | hb)
    · exact (h.earlier (hmeasure ▸ hlt)).mono hstart
    · exact hbarline hb ▸ h.ends

/-- Objects are timed, and only notes and rests have a voice. -/
structure StaffObject.IsPlaced (object : StaffObject Rat) : Prop where
  timed : object.IsTimed
  voice : object.symbol.takesTime = false → object.voice = 0

/-! ## Timelines and what is before each object -/

/-- Each element of a list has a property that may depend on those before it. -/
def EachAfter {α : Type} (q : List α → α → Prop) (xs : List α) : Prop :=
  ∀ k, ∀ x ∈ xs[k]?, q (xs.take k) x

theorem EachAfter.append {α : Type} {q : List α → α → Prop} {xs ys : List α} (hxs : EachAfter q xs)
    (hys : EachAfter (fun front => q (xs ++ front)) ys) : EachAfter q (xs ++ ys) := by
  intro k x hx
  rw [Option.mem_def, List.getElem?_append] at hx
  split at hx
  · next hlt =>
    rw [List.take_append_of_le_length hlt.le]
    exact hxs k x hx
  · next hle =>
    rw [List.take_append, List.take_of_length_le (not_lt.mp hle)]
    exact hys _ x hx

theorem EachAfter.singleton {α : Type} {q : List α → α → Prop} {x : α} (h : q [] x) :
    EachAfter q [x] := by
  intro k y hy
  cases k with
  | zero => exact Option.some.inj hy ▸ h
  | succ k => simp at hy

/-- The measure of an object is the number of barlines before it, counted from 1. -/
def IsCounted : List (StaffObject Rat) → Prop :=
  EachAfter fun front object => object.measure = 1 + front.countP StaffObject.isBarline

/-- What holds of a part wherever the music stands. -/
structure Part.IsMeasured (follows : Nat → Bool) (p : Part Rat) : Prop where
  cursor : p.cursor.IsWithin
  measure : p.cursor.measure = 1 + p.timeline.countP StaffObject.isBarline
  counted : IsCounted p.timeline
  placed : ∀ object ∈ p.timeline, object.IsPlaced
  pairwise : p.timeline.Pairwise (StaffObject.IsMeasuredBefore follows)
  behind : ∀ object ∈ p.timeline, object.IsBehind follows p.cursor

/-- An object that is placed in a measure and is over when the cursor has moved. -/
structure StaffObject.Joins (follows : Nat → Bool) (c c' : Cursor Rat) (object : StaffObject Rat) :
    Prop where
  placed : object.IsPlaced
  notBarline : object.isBarline ≠ true
  measure : object.measure = c.measure
  start : c.measureStart ≤ object.time
  ends : object.EndsBy follows c'.reached

namespace StaffObject.Joins

variable {a b : StaffObject Rat} {c c' : Cursor Rat}

theorem isBehind (h : a.Joins follows c c') (hc : c.GoesOn c') : a.IsBehind follows c' where
  measure_le := (h.measure.trans hc.measure.symm).le
  barline hbarline := absurd hbarline h.notBarline
  ends := h.ends
  earlier hlt := absurd (h.measure.trans hc.measure.symm) hlt.ne

theorem before (ha : a.Joins follows c c') (hb : b.Joins follows c c') :
    a.IsMeasuredBefore follows b where
  measure_le := (ha.measure.trans hb.measure.symm).le
  barline hbarline := absurd hbarline ha.notBarline
  ends := by
    rintro (hlt | hbarline)
    · exact absurd (ha.measure.trans hb.measure.symm) hlt.ne
    · exact absurd hbarline hb.notBarline

end StaffObject.Joins

namespace Part.IsMeasured

variable {p p' : Part Rat}

theorem initial : (Part.initial : Part Rat).IsMeasured follows :=
  ⟨.initial, rfl, nofun, nofun, .nil, nofun⟩

/-- Objects inside a measure. -/
theorem place (h : p.IsMeasured follows) {objects : List (StaffObject Rat)}
    (hobjects : ∀ object ∈ objects, object.Joins follows p.cursor p'.cursor)
    (ht : p'.timeline = p.timeline ++ objects) (hc : p.cursor.GoesOn p'.cursor) :
    p'.IsMeasured follows := by
  have hcount (front : List (StaffObject Rat)) (hfront : front ⊆ objects) :
      (p.timeline ++ front).countP StaffObject.isBarline =
        p.timeline.countP StaffObject.isBarline := by
    rw [List.countP_append, Nat.add_eq_left, List.countP_eq_zero]
    exact fun object hobject => (hobjects object (hfront hobject)).notBarline
  refine ⟨hc.within, ?_, ?_, ?_, ?_, ?_⟩
  · rw [hc.measure, h.measure, ht, hcount _ (List.Subset.refl _)]
  · refine ht ▸ h.counted.append fun k object hobject => ?_
    dsimp only
    rw [hcount _ (List.take_subset _ _), ← h.measure]
    exact (hobjects object (List.mem_of_getElem? hobject)).measure
  · refine ht ▸ List.forall_mem_append.mpr ⟨h.placed, fun object hobject => ?_⟩
    exact (hobjects object hobject).placed
  · rw [ht, List.pairwise_append]
    refine ⟨h.pairwise, ?_, fun a ha b hb => ?_⟩
    · exact List.pairwise_of_forall_mem_list fun a ha b hb =>
        (hobjects a ha).before (hobjects b hb)
    · have hb := hobjects b hb
      exact (h.behind a ha).before hb.measure hb.start fun hbarline => absurd hbarline hb.notBarline
  · refine ht ▸ List.forall_mem_append.mpr ⟨fun object hobject => ?_, fun object hobject => ?_⟩
    · exact (h.behind object hobject).goesOn hc
    · exact (hobjects object hobject).isBehind hc

/-- A barline behind everything else in its measure. -/
theorem close (h : p.IsMeasured follows) {shape : Barline} {times : Nat} {object : StaffObject Rat}
    (hclose : ClosesMeasure p p' shape times object) (hduration : object.duration = 0) :
    p'.IsMeasured follows := by
  have hbarline : object.isBarline = true :=
    StaffObject.isBarline_iff.mpr ⟨shape, times, hclose.symbol⟩
  have hreached : p.cursor.measureStart ≤ p.cursor.reached :=
    h.cursor.start_le.trans h.cursor.le_reached
  refine ⟨?_, ?_, ?_, ?_, ?_, ?_⟩
  · exact hclose.cursor ▸ h.cursor.nextMeasure
  · rw [hclose.cursor, Cursor.nextMeasure, h.measure, hclose.timeline, List.countP_append,
      List.countP_singleton, if_pos hbarline, Nat.add_assoc]
  · rw [hclose.timeline]
    refine h.counted.append (.singleton ?_)
    rw [List.append_nil, ← h.measure, hclose.measure]
  · rw [hclose.timeline]
    refine List.forall_mem_append.mpr ⟨h.placed, List.forall_mem_singleton.mpr ⟨⟨?_, ?_⟩, ?_⟩⟩
    · exact hclose.time ▸ h.cursor.zero_le.trans hreached
    · rwa [hclose.symbol]
    · exact fun _ => hclose.voice
  · rw [hclose.timeline, List.pairwise_append]
    refine ⟨h.pairwise, List.pairwise_singleton _ _, fun a ha b hb => ?_⟩
    obtain rfl := List.mem_singleton.mp hb
    exact (h.behind a ha).before hclose.measure (hclose.time ▸ hreached) fun _ => hclose.time
  · rw [hclose.timeline, hclose.cursor]
    refine List.forall_mem_append.mpr ⟨fun a ha => ?_, List.forall_mem_singleton.mpr ?_⟩
    · exact (h.behind a ha).ends.isBehind_nextMeasure (h.behind a ha).measure_le
    · refine StaffObject.EndsBy.isBehind_nextMeasure ?_ hclose.measure.le
      exact .of_silent (fun number => by simp [hclose.symbol]) hclose.time.le

/-- A clef, a key, a time signature or a bracket takes no time. -/
theorem joins_of_marks (h : p.IsMeasured follows) {object : StaffObject Rat}
    (hobject : object.Marks p.cursor) (hc : p'.cursor = p.cursor) :
    object.Joins follows p.cursor p'.cursor where
  placed := by
    refine ⟨⟨hobject.time ▸ h.cursor.zero_le.trans h.cursor.start_le, ?_⟩, fun _ => hobject.voice⟩
    split
    · next htakes =>
      cases hsymbol : object.symbol with
      | noteRest number => exact absurd hsymbol (hobject.symbol number)
      | _ => simp [hsymbol, StaffSymbol.takesTime] at htakes
    · exact hobject.duration
  notBarline := by simp [hobject.notBarline]
  measure := hobject.measure
  start := hobject.time ▸ h.cursor.start_le
  ends := .of_silent hobject.symbol (hc ▸ hobject.time ▸ h.cursor.le_reached)

/-- A note that is no later one of its chord is over where the cursor goes, and a later one has at
least begun before. -/
theorem joins_of_sounds (h : p.IsMeasured follows) {object : StaffObject Rat} {inChord : Bool}
    (hobject : object.Sounds follows p.cursor inChord) {d : Rat} (hd : 0 < d)
    (hlead : inChord = false → object.duration = d) (hc : p'.cursor = p.cursor.advance d) :
    object.Joins follows p.cursor p'.cursor := by
  obtain ⟨number, hsymbol, hfollows⟩ := hobject.symbol
  have hreached : p.cursor.time + d ≤ p'.cursor.reached := by
    rw [hc, Cursor.advance, Cursor.forwardTo, later_eq]
    exact le_max_right _ _
  have hlt : object.time < p'.cursor.reached :=
    hobject.time ▸ (lt_add_of_pos_right _ hd).trans_le hreached
  refine ⟨⟨⟨?_, ?_⟩, ?_⟩, ?_, hobject.measure, hobject.time ▸ h.cursor.start_le,
    hlt.le, fun _ _ => hlt, fun number' hsymbol' hnot => ?_⟩
  · exact hobject.time ▸ h.cursor.zero_le.trans h.cursor.start_le
  · simpa [hsymbol, StaffSymbol.takesTime] using hobject.duration
  · simp [hsymbol, StaffSymbol.takesTime]
  · simp [StaffObject.isBarline_iff, hsymbol]
  · obtain rfl := StaffSymbol.noteRest.inj (hsymbol.symm.trans hsymbol')
    rwa [StaffObject.finish, hobject.time, hlead (hfollows.symm.trans hnot)]

theorem step (h : p.IsMeasured follows) (hstep : MusicStep follows p p') :
    p'.IsMeasured follows := by
  cases hstep with
  | move ht hc =>
      exact h.place (List.forall_mem_nil _) (ht.trans (List.append_nil _).symm) (h.cursor.goesOn hc)
  | mark object hobject ht hc =>
      refine h.place (List.forall_mem_singleton.mpr (h.joins_of_marks hobject hc)) ht ?_
      exact h.cursor.goesOn (.stay hc)
  | sound lead others hlead hothers ht hc =>
      have hd : 0 < lead.duration := hlead.duration
      refine h.place (List.forall_mem_cons.mpr ⟨?_, fun other hother => ?_⟩) ht ?_
      · exact h.joins_of_sounds hlead hd (fun _ => rfl) hc
      · exact h.joins_of_sounds (hothers other hother) hd nofun hc
      · exact h.cursor.goesOn (.forward _ (.inl (le_add_of_nonneg_right hd.le)) hc)
  | close shape times object hclose hduration => exact h.close hclose hduration

theorem of_steps (h : MusicSteps follows .initial p) : p.IsMeasured follows := by
  induction h with
  | refl => exact initial
  | tail _ hstep ih => exact ih.step hstep

end Part.IsMeasured

/-! ## Timelines of scores -/

/-- The measures of a timeline, whose later notes of chords the score knows. -/
structure Score.Measures (score : Score Rat) (timeline : List (StaffObject Rat)) : Prop where
  counted : ∀ k, ∀ object ∈ timeline[k]?,
    object.measure = 1 + (timeline.take k).countP StaffObject.isBarline
  /-- The barline of a measure does not stand before any object of the measure. -/
  starts : ∀ bar ∈ timeline, bar.isBarline = true → ∀ object ∈ timeline,
    object.measure = bar.measure → object.time ≤ bar.time
  /-- Neither does it stand before the end of a note or rest, except for later notes of chords. -/
  ends : ∀ bar ∈ timeline, bar.isBarline = true → ∀ object ∈ timeline,
    object.measure = bar.measure → ∀ number, object.symbol = .noteRest number →
      score.follows number = false → object.time + object.duration ≤ bar.time
  /-- No object of a later measure stands before it. -/
  later : ∀ bar ∈ timeline, bar.isBarline = true → ∀ object ∈ timeline,
    bar.measure < object.measure → bar.time ≤ object.time
  inOrder : (inTimeOrder timeline).Pairwise fun a b => a.1.measure ≤ b.1.measure

namespace Part.IsMeasured

variable {p : Part Rat}

/-- One of two objects stands before the other. -/
theorem before_of_lt (h : p.IsMeasured follows) {a b : StaffObject Rat} {j k : Nat}
    (ha : p.timeline[j]? = some a) (hb : p.timeline[k]? = some b) (hlt : j < k) :
    a.IsMeasuredBefore follows b := by
  obtain ⟨hj, rfl⟩ := List.getElem?_eq_some_iff.mp ha
  obtain ⟨hk, rfl⟩ := List.getElem?_eq_some_iff.mp hb
  exact List.pairwise_iff_getElem.mp h.pairwise j k hj hk hlt

/-- An object of an earlier measure stands before those of later measures, and is over there. -/
theorem before_of_measure_lt (h : p.IsMeasured follows) {a b : StaffObject Rat} {j k : Nat}
    (ha : p.timeline[j]? = some a) (hb : p.timeline[k]? = some b)
    (hmeasure : a.measure < b.measure) : j < k ∧ a.EndsBy follows b.time := by
  rcases Nat.lt_trichotomy j k with hlt | rfl | hlt
  · exact ⟨hlt, (h.before_of_lt ha hb hlt).ends (.inl hmeasure)⟩
  · obtain rfl := Option.some.inj (ha.symm.trans hb)
    exact absurd hmeasure (Nat.lt_irrefl _)
  · exact absurd (h.before_of_lt hb ha hlt).measure_le (Nat.not_le.mpr hmeasure)

theorem endsBy_barline (h : p.IsMeasured follows) {bar object : StaffObject Rat}
    (hbar : bar ∈ p.timeline) (hbarline : bar.isBarline = true) (hobject : object ∈ p.timeline)
    (hmeasure : object.measure = bar.measure) : object.EndsBy follows bar.time := by
  obtain ⟨k, hk⟩ := List.getElem?_of_mem hbar
  obtain ⟨j, hj⟩ := List.getElem?_of_mem hobject
  rcases Nat.lt_trichotomy j k with hlt | rfl | hlt
  · exact (h.before_of_lt hj hk hlt).ends (.inr hbarline)
  · obtain rfl := Option.some.inj (hj.symm.trans hk)
    have hsymbol : ∀ number, object.symbol ≠ .noteRest number := fun number hnumber => by
      simp [StaffObject.isBarline_iff, hnumber] at hbarline
    exact .of_silent hsymbol le_rfl
  · exact absurd hmeasure.symm ((h.before_of_lt hk hj hlt).barline hbarline).ne

/-- An object that stands before another one in the order of time is not in a later measure. -/
theorem measure_le_of_standsBefore (h : p.IsMeasured follows) {a b : StaffObject Rat × Nat}
    (ha : p.timeline[a.2]? = some a.1) (hb : p.timeline[b.2]? = some b.1)
    (hab : StaffObject.StandsBefore a b) : a.1.measure ≤ b.1.measure := by
  by_contra hmeasure
  obtain ⟨hindex, hends⟩ := h.before_of_measure_lt hb ha (Nat.not_le.mp hmeasure)
  rcases hab with hlt | ⟨htime, hvoice⟩
  · exact absurd hends.time_le (not_le.mpr hlt)
  · -- only objects without voice stand at the time of the barline behind them
    have hsilent : b.1.symbol.takesTime = false := by
      cases hsymbol : b.1.symbol with
      | noteRest number => exact absurd (hends.time_lt number hsymbol) htime.not_gt
      | _ => rfl
    have hb := (h.placed b.1 (List.mem_of_getElem? hb)).voice hsilent
    omega

theorem measures (h : p.IsMeasured follows) {score : Score Rat}
    (hfollows : score.follows = follows) : score.Measures p.timeline where
  counted := h.counted
  starts bar hbar hbarline object hobject hmeasure :=
    (h.endsBy_barline hbar hbarline hobject hmeasure).time_le
  ends bar hbar hbarline object hobject hmeasure number hsymbol hlead :=
    (h.endsBy_barline hbar hbarline hobject hmeasure).finish_le number hsymbol (hfollows ▸ hlead)
  later bar hbar _ object hobject hlt := by
    obtain ⟨j, hj⟩ := List.getElem?_of_mem hbar
    obtain ⟨k, hk⟩ := List.getElem?_of_mem hobject
    exact (h.before_of_measure_lt hj hk hlt).2.time_le
  inOrder := (inTimeOrder_pairwise p.timeline).imp_of_mem fun ha hb hab =>
    h.measure_le_of_standsBefore (mem_inTimeOrder.mp ha) (mem_inTimeOrder.mp hb) hab

end Part.IsMeasured

theorem Score.measures_of_mem {settings : Settings} {tree : Node} {analysis : Analysis Rat}
    (h : analyse settings tree = .ok analysis) {score : Score Rat}
    (hs : score ∈ analysis.document.scores) {i : Instrument Rat} (hi : i ∈ score.instruments) :
    score.Measures i.timeline := by
  obtain ⟨part, hsteps, htimeline⟩ := obeys_musicSteps_of_analyse h hs i hi
  exact htimeline ▸ (Part.IsMeasured.of_steps hsteps).measures rfl

/-- With exact times the measures of every score ascend in time. -/
theorem ascendsInTime_of_analyse {settings : Settings} {tree : Node} {analysis : Analysis Rat}
    (h : analyse settings tree = .ok analysis) {score : Score Rat}
    (hs : score ∈ analysis.document.scores) : score.AscendsInTime := by
  unfold Score.AscendsInTime Score.firstTimeline
  split
  · exact .nil
  · next first rest hi => exact (Score.measures_of_mem h hs (by simp [hi])).inOrder

/-- The measures of all instruments divide their time, and wherever the analysis of a score stands,
the cursor is in its measure. -/
theorem measures_of_analyse {settings : Settings} {tree : Node} {analysis : Analysis Rat}
    (h : analyse settings tree = .ok analysis) :
    (∀ score ∈ analysis.document.scores, ∀ i ∈ score.instruments, score.Measures i.timeline) ∧
      ∀ before children elements,
        (passageAfter settings before children elements : Passage Rat).part.cursor.IsWithin := by
  refine ⟨fun score hs i hi => Score.measures_of_mem h hs hi, fun before children elements => ?_⟩
  obtain ⟨follows, hsteps⟩ := exists_musicSteps_passageAfter settings before children elements
  exact (Part.IsMeasured.of_steps hsteps).cursor

/-- A chord whose second note lasts into the next measure, and two voices of different length. -/
def overhangingChord : Node :=
  let here : Position := ⟨1, 1⟩
  let word (text : String) : Node := .atom .label text here
  let note (parts : List Node) : Node := .element .note parts here
  .element .score
    [.element .instrument [.element .music
      [.element .chord [note [word "c4", word "q"], note [word "e4", word "h"]] here,
        .element .barline [] here, note [word "d4", word "q"],
        .element .goBack [word "start"] here, note [word "f4", word "h", word "v2"],
        .element .time [.atom .number "3" here, .atom .number "4" here] here,
        .element .goBack [word "e"] here, .element .barline [] here,
        note [word "g4", word "e"]] here] here] here

theorem measures_of_analyse_overhangingChord :
    ∃ analysis : Analysis Rat, analyse {} overhangingChord = .ok analysis ∧
      (analysis.document.scores.map fun score => score.instruments.map fun i =>
        i.timeline.map fun object => (object.time, object.duration, object.measure, object.voice)) =
          [[[(0, 64, 1, 1), (0, 128, 1, 1), (64, 0, 1, 0), (64, 64, 2, 1), (64, 128, 2, 2),
            (192, 0, 2, 0), (192, 0, 2, 0), (192, 32, 3, 2)]]] ∧
      (∀ score ∈ analysis.document.scores, ∀ i ∈ score.instruments, score.Measures i.timeline) ∧
        ∀ before children elements,
          (passageAfter {} before children elements : Passage Rat).part.cursor.IsWithin := by
  have h : (analyse {} overhangingChord : Except CompileError (Analysis Rat)) = .ok _ := rfl
  exact ⟨_, h, by decide +kernel, measures_of_analyse h⟩

end ScorePlayback
