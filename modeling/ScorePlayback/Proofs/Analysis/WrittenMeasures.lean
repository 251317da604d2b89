import ScorePlayback.Proofs.Analysis.Barlines
import ScorePlayback.Proofs.Analysis.MusicBlocks
import ScorePlayback.Proofs.Analysis.MusicReading

/-! # Measures written one after the other

A measure is written as its bracket, if one starts with it, its music and its barline. However
the music moves the cursor, it stays in its measure unless it loses its time. So brackets and
barlines are read in the order in which they are written, and no music is read before the bracket
that it stands under, except for music without a time, which is read before all brackets. -/

namespace ScorePlayback

variable {τ : Type} [TimeValue τ]

open TimeValue (NotLater IsUndefined)

/-! ## How measures are written -/

/-- What a measure has besides its music: the ending and the span of a bracket that starts with
it, and the shape of the barline that closes it. -/
structure Frame where
  bracket : Option (Nat × Nat) := none
  shape : Barline := .simple
deriving DecidableEq, Repr

namespace Frame

/-- The elements in front of the music. -/
def Opens (f : Frame) (elements : List Node) : Prop :=
  match f.bracket with
  | none => elements = []
  | some bracket => ∃ volta, elements = [volta] ∧ volta.kind = .element .volta ∧
      Control.readVolta volta = .ok bracket

/-- What the frame of a measure says about repeats. -/
def marks (f : Frame) (measure : Nat) : List RepeatMark :=
  (f.bracket.toList.map fun bracket => .volta bracket.1 measure bracket.2)
    ++ [.barline f.shape measure 1]

end Frame

def Node.IsContent (n : Node) : Prop := n.kind ≠ .element .barline ∧ n.kind ≠ .element .volta

/-- Measures with these frames, written one after the other. All repetitions are single ones.
The last measure may do without its barline, if it is a simple one and the measure has a note or
rest. -/
inductive Writes (settings : Settings) : List Frame → List Node → Prop where
  | nil : Writes settings [] []
  | measure {f : Frame} {frames : List Frame} {opening music rest : List Node} {barline : Node}
      (hopening : f.Opens opening) (hmusic : ∀ n ∈ music, n.IsContent)
      (hkind : barline.kind = .element .barline)
      (hbarline : Control.readBarline settings barline = .ok ⟨f.shape, 1⟩)
      (hrest : Writes settings frames rest) :
      Writes settings (f :: frames) (opening ++ (music ++ barline :: rest))
  | unclosed {f : Frame} {opening music : List Node} (hshape : f.shape = .simple)
      (hopening : f.Opens opening) (hmusic : ∀ n ∈ music, n.IsContent)
      (hbears : ∃ n ∈ music, n.placed settings ≠ []) : Writes settings [f] (opening ++ music)

/-- The marks of measures with these frames, counted from a measure on. -/
def marksFrom : Nat → List Frame → List RepeatMark
  | _, [] => []
  | measure, f :: frames => f.marks measure ++ marksFrom (measure + 1) frames

/-! ## The order of marks -/

namespace RepeatMark

def isMusic : RepeatMark → Bool
  | .music _ => true
  | _ => false

/-- The mark can be read behind music of a measure. -/
def Admits : RepeatMark → Nat → Prop
  | .volta _ start _, measure => measure < start
  | .music _, _ => True
  | .barline _ last _, measure => measure ≤ last

end RepeatMark

def StaffObject.isStructural (object : StaffObject τ) : Bool :=
  (RepeatMark.ofObject? object).any fun mark => !mark.isMusic

/-- The object has a time, not one that has been lost. -/
def StaffObject.HasTime (object : StaffObject τ) : Prop := NotLater TimeValue.zero object.time

instance (object : StaffObject τ) : Decidable object.HasTime :=
  inferInstanceAs (Decidable (NotLater _ _))

/-- One object may stand before the other on a timeline: a bracket or barline is not later than
what has a time, and the other one admits the measure. -/
def StaffObject.Leads (a b : StaffObject τ) : Prop :=
  (a.isStructural = true → b.HasTime → a.MayPrecede b) ∧
    ∀ mark ∈ RepeatMark.ofObject? b, mark.Admits a.measure

/-- The mark of an object may not be read behind music of the measure of another. -/
def StaffObject.Refuses (a b : StaffObject τ) : Prop :=
  ∃ mark ∈ RepeatMark.ofObject? a, ¬ mark.Admits b.measure

/-- What an element of music that is neither a bracket nor a barline may place. -/
def StaffObject.IsContent (object : StaffObject τ) : Prop :=
  match object.symbol with
  | .barline _ _ => False
  | .volta _ _ => False
  | _ => True

omit [TimeValue τ] in
theorem StaffObject.IsContent.mark {object : StaffObject τ} (h : object.IsContent) :
    ∀ mark ∈ RepeatMark.ofObject? object, mark.isMusic = true := by
  intro mark hmark
  cases hs : object.symbol <;>
    simp_all only [IsContent, RepeatMark.ofObject?, Option.mem_def, Option.some.injEq, reduceCtorEq]
  exact hmark ▸ rfl

omit [TimeValue τ] in
theorem StaffObject.IsContent.isStructural_eq {object : StaffObject τ} (h : object.IsContent) :
    object.isStructural = false := by
  unfold isStructural
  cases hm : RepeatMark.ofObject? object with
  | none => rfl
  | some mark => simp [h.mark mark hm]

/-- Nothing on the timeline is behind the cursor's measure, and brackets and barlines are not
later than its start. -/
structure Part.IsLaidOut (p : Part τ) : Prop where
  timed : p.cursor.IsTimed
  pairwise : p.timeline.Pairwise StaffObject.Leads
  behind : ∀ object ∈ p.timeline, object.measure ≤ p.cursor.measure ∧
    (object.isStructural = true → object.voice = 0 ∧ object.HasTime ∧
      NotLater object.time p.cursor.measureStart)

/-- Nothing has been placed in the cursor's measure. -/
structure Part.AtMeasureStart (p : Part τ) : Prop where
  time : p.cursor.time = p.cursor.measureStart
  before : ∀ object ∈ p.timeline, object.measure < p.cursor.measure

namespace Part.IsLaidOut

variable [RoundedTime τ] {p p' : Part τ}

theorem initial : (Part.initial : Part τ).IsLaidOut := ⟨.initial, .nil, by simp [Part.initial]⟩

/-- Whatever the object is, it stands behind those on the timeline if it admits them. -/
theorem place (h : p.IsLaidOut) {object : StaffObject τ}
    (ht : p'.timeline = p.timeline ++ [object]) (hm : object.measure = p.cursor.measure)
    (htime : NotLater p.cursor.measureStart object.time ∨ IsUndefined object.time)
    (hadmits : ∀ other ∈ p.timeline, ∀ mark ∈ RepeatMark.ofObject? object,
      mark.Admits other.measure) : p'.timeline.Pairwise StaffObject.Leads := by
  rw [ht, List.pairwise_append]
  refine ⟨h.pairwise, List.pairwise_singleton _ _, ?_⟩
  intro a ha b hb
  obtain rfl := List.mem_singleton.mp hb
  refine ⟨fun hstructural htimed => ?_, hadmits a ha⟩
  obtain ⟨hvoice, -, hle⟩ := (h.behind a ha).2 hstructural
  have htime := htime.resolve_right fun hlost => RoundedTime.not_zero_le hlost htimed
  exact ⟨OrderedTime.trans hle htime, hvoice ▸ Nat.zero_le _⟩

theorem partStep (h : p.IsLaidOut) (hs : PartStep StaffObject.IsContent p p') :
    p'.IsLaidOut := by
  obtain ⟨hmeasure, hstart⟩ := hs.sameMeasure
  refine ⟨h.timed.of_partStep hs, ?_, ?_⟩
  · rcases hs.timeline_cases with ht | ⟨object, hobject, htime, hcursor, ht⟩
    · exact ht ▸ h.pairwise
    · refine h.place ht hcursor (htime ▸ h.timed.start_le_time) fun other _ mark hmark => ?_
      have := hobject.mark mark hmark
      cases mark <;> simp_all [RepeatMark.isMusic, RepeatMark.Admits]
  · rw [hmeasure, hstart]
    rcases hs.timeline_cases with ht | ⟨object, hobject, -, hcursor, ht⟩
    · exact ht ▸ h.behind
    · rw [ht, List.forall_mem_append, List.forall_mem_singleton]
      refine ⟨h.behind, hcursor.le, fun hstructural => ?_⟩
      simp [hobject.isStructural_eq] at hstructural

theorem partSteps (h : p.IsLaidOut) (hs : PartSteps StaffObject.IsContent p p') :
    p'.IsLaidOut := by
  induction hs with
  | refl => exact h
  | tail _ hstep ih => exact ih.partStep hstep

/-- A bracket at the start of a measure is not later than what else is placed there. -/
theorem openBracket (h : p.IsLaidOut) (hstart : p.AtMeasureStart) {ending span : Nat}
    {object : StaffObject τ} (hsymbol : object.symbol = .volta ending span)
    (htime : object.time = p.cursor.time) (hmeasure : object.measure = p.cursor.measure)
    (hvoice : object.voice = 0) (ht : p'.timeline = p.timeline ++ [object])
    (hc : p'.cursor = p.cursor) : p'.IsLaidOut := by
  refine ⟨hc ▸ h.timed, ?_, ?_⟩
  · refine h.place ht hmeasure (htime ▸ h.timed.start_le_time) fun other hother mark hmark => ?_
    simp only [RepeatMark.ofObject?, hsymbol, Option.mem_def, Option.some.injEq] at hmark
    rw [← hmark, RepeatMark.Admits, hmeasure]
    exact hstart.before other hother
  · rw [ht, hc]
    intro a ha
    rcases List.mem_append.mp ha with ha | ha
    · exact h.behind a ha
    · obtain rfl := List.mem_singleton.mp ha
      have htime : a.time = p.cursor.measureStart := htime.trans hstart.time
      refine ⟨hmeasure.le, fun _ => ⟨hvoice, ?_, htime ▸ OrderedTime.refl _⟩⟩
      rw [StaffObject.HasTime, htime]
      exact h.timed.zero_le

theorem closeMeasure (h : p.IsLaidOut) {shape : Barline} {times : Nat} {object : StaffObject τ}
    (hc : ClosesMeasure p p' shape times object) : p'.IsLaidOut ∧ p'.AtMeasureStart := by
  have hstart : p'.cursor.measureStart = p.cursor.reached := by rw [hc.cursor]; rfl
  have htime : p'.cursor.time = p.cursor.reached := by rw [hc.cursor]; rfl
  have hmeasure : p'.cursor.measure = p.cursor.measure + 1 := by rw [hc.cursor]; rfl
  have hbefore : ∀ a ∈ p'.timeline, a.measure ≤ p.cursor.measure ∧
      (a.isStructural = true → a.voice = 0 ∧ a.HasTime ∧ NotLater a.time p.cursor.reached) := by
    rw [hc.timeline]
    intro a ha
    rcases List.mem_append.mp ha with ha | ha
    · refine ⟨(h.behind a ha).1, fun hstructural => ?_⟩
      obtain ⟨hvoice, htimed, hle⟩ := (h.behind a ha).2 hstructural
      exact ⟨hvoice, htimed, OrderedTime.trans hle h.timed.start_le_reached⟩
    · obtain rfl := List.mem_singleton.mp ha
      refine ⟨hc.measure.le, fun _ => ⟨hc.voice, ?_, hc.time ▸ OrderedTime.refl _⟩⟩
      rw [StaffObject.HasTime, hc.time]
      exact h.timed.zero_le_reached
  refine ⟨⟨hc.cursor ▸ h.timed.nextMeasure, ?_, ?_⟩, ?_, ?_⟩
  · refine h.place hc.timeline hc.measure (.inl (hc.time ▸ h.timed.start_le_reached))
      fun other hother mark hmark => ?_
    simp only [RepeatMark.ofObject?, hc.symbol, Option.mem_def, Option.some.injEq] at hmark
    rw [← hmark, RepeatMark.Admits, hc.measure]
    exact (h.behind other hother).1
  · intro a ha
    rw [hstart, hmeasure]
    exact ⟨Nat.le_succ_of_le (hbefore a ha).1, (hbefore a ha).2⟩
  · rw [htime, hstart]
  · intro a ha
    exact hmeasure ▸ Nat.lt_succ_of_le (hbefore a ha).1

end Part.IsLaidOut

/-! ## Elements of a measure -/

namespace Passage

variable (settings : Settings) (s : Passage τ) {n : Node}

theorem read_content (hn : n.IsContent) :
    PartSteps StaffObject.IsContent s.part (Passage.read settings s n).part := by
  rcases read_steps settings s n with h | ⟨shape, times, object, hkind, -, -⟩
  · refine h.mono fun object hplaces => ?_
    cases hs : object.symbol <;> simp_all [Node.Places, StaffObject.IsContent]
    exact hn.2 hplaces.1
  · exact absurd hkind hn.1

theorem read_volta (hkind : n.kind = .element .volta) {bracket : Nat × Nat}
    (h : Control.readVolta n = .ok bracket) :
    (Passage.read settings s n).part =
      s.part.place (s.mark s.part.cursor.time (.volta bracket.1 bracket.2) n.position) := by
  cases n with
  | atom kind text position => simp [Node.kind] at hkind
  | element name children position =>
      obtain rfl : name = .volta := by simpa [Node.kind] using hkind
      rw [Passage.read, h]
      rfl

theorem read_barline (hkind : n.kind = .element .barline) {b : Control.BarlineSpec}
    (h : Control.readBarline settings n = .ok b) :
    ∃ object, ClosesMeasure s.part (Passage.read settings s n).part b.shape b.times object := by
  cases n with
  | atom kind text position => simp [Node.kind] at hkind
  | element name children position =>
      obtain rfl : name = .barline := by simpa [Node.kind] using hkind
      rw [Passage.read, h]
      exact ⟨_, addBarline_closes s b position⟩

end Passage

/-- The brackets and barlines of a part, as they are written. -/
def Part.structuralMarks (p : Part τ) : List RepeatMark :=
  (p.timeline.filterMap RepeatMark.ofObject?).filter fun mark => !mark.isMusic

omit [TimeValue τ] in
theorem Part.structuralMarks_of_place {p p' : Part τ} {object : StaffObject τ}
    (ht : p'.timeline = p.timeline ++ [object]) :
    p'.structuralMarks = p.structuralMarks ++
      (RepeatMark.ofObject? object).toList.filter fun mark => !mark.isMusic := by
  rw [structuralMarks, structuralMarks, ht, List.filterMap_append, List.filter_append]
  cases h : RepeatMark.ofObject? object with
  | none => rw [List.filterMap_cons_none h]; rfl
  | some mark => rw [List.filterMap_cons_some h]; rfl

/-- Content adds neither brackets nor barlines. -/
theorem PartSteps.structuralMarks_eq {p p' : Part τ} (h : PartSteps StaffObject.IsContent p p') :
    p'.structuralMarks = p.structuralMarks := by
  induction h with
  | refl => rfl
  | tail _ hstep ih =>
      rw [← ih]
      rcases hstep.timeline_cases with ht | ⟨object, hobject, -, -, ht⟩
      · rw [Part.structuralMarks, ht]
        rfl
      · rw [Part.structuralMarks_of_place ht, List.filter_eq_nil_iff.mpr, List.append_nil]
        intro mark hmark
        simp [hobject.mark mark (Option.mem_toList.mp hmark)]

/-! ## Measures -/

/-- What measures with some frames leave behind that are written from the start of a measure on. -/
structure Part.HasWritten (p : Part τ) (frames : List Frame) (q : Part τ) : Prop where
  laidOut : q.IsLaidOut
  measure_lt : ∀ object ∈ q.timeline, object.measure < p.cursor.measure + frames.length
  exists_last : frames ≠ [] →
    ∃ object ∈ q.timeline, object.measure + 1 = p.cursor.measure + frames.length
  marks : ∃ final, (final = [] ∨ ∃ measure, final = [.barline .simple measure 1]) ∧
    q.structuralMarks ++ final = p.structuralMarks ++ marksFrom p.cursor.measure frames

/-- What a measure leaves behind that is read from its start up to its barline. -/
structure Part.HasClosed (p : Part τ) (f : Frame) (q : Part τ) : Prop where
  laidOut : q.IsLaidOut
  atStart : q.AtMeasureStart
  measure : q.cursor.measure = p.cursor.measure + 1
  bears : q.Bears p.cursor.measure
  marks : q.structuralMarks = p.structuralMarks ++ f.marks p.cursor.measure

theorem Part.HasClosed.hasWritten {p q r : Part τ} {f : Frame} {frames : List Frame}
    (h : p.HasClosed f q) (hr : q.HasWritten frames r) (hnil : frames = [] → r = q) :
    p.HasWritten (f :: frames) r := by
  have hlength : q.cursor.measure + frames.length = p.cursor.measure + (f :: frames).length := by
    rw [h.measure, List.length_cons]
    omega
  obtain ⟨hlaid, hlt, hlast, final, hfinal, hmarks⟩ := hr
  refine ⟨hlaid, hlength ▸ hlt, fun _ => ?_, final, hfinal, hmarks.trans ?_⟩
  · rw [← hlength]
    by_cases hframes : frames = []
    · obtain ⟨object, hobject, hmeasure⟩ := h.bears
      exact ⟨object, hnil hframes ▸ hobject, by rw [hmeasure, h.measure, hframes]; rfl⟩
    · exact hlast hframes
  · rw [h.marks, h.measure, marksFrom, List.append_assoc]

namespace ReadsMusic

variable [RoundedTime τ] {settings : Settings} {p q : Part τ}

omit [RoundedTime τ] in
theorem steps {music : List Node} (h : ReadsMusic settings p music q)
    (hmusic : ∀ n ∈ music, n.IsContent) : PartSteps StaffObject.IsContent p q := by
  induction h with
  | nil p => exact .refl
  | cons s hs _ ih =>
      subst hs
      obtain ⟨hn, hmusic⟩ := List.forall_mem_cons.mp hmusic
      exact (Passage.read_content settings s hn).trans (ih hmusic)

omit [RoundedTime τ] in
/-- Music with a note or rest has an object in its measure. -/
theorem bears {music : List Node} (h : ReadsMusic settings p music q)
    (hmusic : ∀ n ∈ music, n.IsContent) (hbears : ∃ n ∈ music, n.placed settings ≠ []) :
    q.Bears p.cursor.measure := by
  obtain ⟨n, hn, hplaced⟩ := hbears
  obtain ⟨before, after, rfl⟩ := List.append_of_mem hn
  obtain ⟨hmusic, hmusic'⟩ := List.forall_mem_append.mp hmusic
  obtain ⟨p', hbefore, h⟩ := h.exists_of_append
  cases h with
  | cons s hs hafter =>
      subst hs
      refine (hafter.steps (List.forall_mem_cons.mp hmusic').2).bears ?_
      exact (hbefore.steps hmusic).sameMeasure ▸ s.bears_read hplaced

theorem opening {f : Frame} {elements : List Node} (h : ReadsMusic settings p elements q)
    (hopens : f.Opens elements) (hp : p.IsLaidOut) (hstart : p.AtMeasureStart) :
    q.IsLaidOut ∧ q.structuralMarks = p.structuralMarks ++
        f.bracket.toList.map (fun bracket => .volta bracket.1 p.cursor.measure bracket.2) ∧
      q.cursor.measure = p.cursor.measure := by
  unfold Frame.Opens at hopens
  split at hopens
  · next hnone =>
    subst hopens
    cases h with
    | nil => exact ⟨hp, by simp [hnone], rfl⟩
  · next bracket hsome =>
    obtain ⟨volta, rfl, hkind, hread⟩ := hopens
    cases h with
    | cons s hs hrest =>
        subst hs
        cases hrest with
        | nil =>
            rw [Passage.read_volta settings s hkind hread]
            refine ⟨hp.openBracket hstart rfl rfl rfl rfl rfl rfl, ?_, rfl⟩
            rw [Part.structuralMarks_of_place rfl, hsome]
            rfl

theorem closes {f : Frame} {elements music : List Node} {barline : Node}
    (h : ReadsMusic settings p (elements ++ (music ++ [barline])) q) (hopens : f.Opens elements)
    (hmusic : ∀ n ∈ music, n.IsContent) (hkind : barline.kind = .element .barline)
    (hbarline : Control.readBarline settings barline = .ok ⟨f.shape, 1⟩)
    (hp : p.IsLaidOut) (hstart : p.AtMeasureStart) : p.HasClosed f q := by
  obtain ⟨p₁, hread₁, h⟩ := h.exists_of_append
  obtain ⟨p₂, hread₂, h⟩ := h.exists_of_append
  obtain ⟨hp₁, hmarks₁, hmeasure₁⟩ := hread₁.opening hopens hp hstart
  have hsteps := hread₂.steps hmusic
  have hmeasure₂ : p₂.cursor.measure = p.cursor.measure := hsteps.sameMeasure.trans hmeasure₁
  cases h with
  | cons s hs h =>
      subst hs
      cases h with
      | nil =>
          obtain ⟨object, hclose⟩ := Passage.read_barline settings s hkind hbarline
          obtain ⟨hlaid, hatStart⟩ := (hp₁.partSteps hsteps).closeMeasure hclose
          have hmeasure : object.measure = p.cursor.measure := hclose.measure.trans hmeasure₂
          have hobject : RepeatMark.ofObject? object =
              some (.barline f.shape p.cursor.measure 1) := by
            rw [RepeatMark.ofObject?, hclose.symbol, hmeasure]
          refine ⟨hlaid, hatStart, ?_, ⟨object, by simp [hclose.timeline], hmeasure⟩, ?_⟩
          · rw [hclose.cursor, ← hmeasure₂]
            rfl
          · rw [Part.structuralMarks_of_place hclose.timeline, hobject, hsteps.structuralMarks_eq,
              hmarks₁, Frame.marks]
            simp [RepeatMark.isMusic]

/-- Measures that are written with these frames leave their marks, perhaps without the last
barline, which is a simple one. The last of them has an object, and none is behind it. -/
theorem of_writes {frames : List Frame} {elements : List Node}
    (hwrites : Writes settings frames elements) (h : ReadsMusic settings p elements q)
    (hp : p.IsLaidOut) (hstart : p.AtMeasureStart) : p.HasWritten frames q := by
  induction hwrites generalizing p with
  | nil =>
      cases h with
      | nil => exact ⟨hp, hstart.before, nofun, [], .inl rfl, rfl⟩
  | @measure f frames opening music rest barline hopening hmusic hkind hbarline hrest ih =>
      rw [show opening ++ (music ++ barline :: rest) = opening ++ (music ++ [barline]) ++ rest by
        simp] at h
      obtain ⟨p₁, hread, h⟩ := h.exists_of_append
      have hclosed := hread.closes hopening hmusic hkind hbarline hp hstart
      refine hclosed.hasWritten (ih h hclosed.laidOut hclosed.atStart) ?_
      rintro rfl
      cases hrest with
      | nil =>
          cases h with
          | nil => rfl
  | @unclosed f opening music hshape hopening hmusic hbears =>
      obtain ⟨p₁, hread₁, hread₂⟩ := h.exists_of_append
      obtain ⟨hp₁, hmarks₁, hmeasure₁⟩ := hread₁.opening hopening hp hstart
      have hsteps := hread₂.steps hmusic
      have hq := hp₁.partSteps hsteps
      have hmeasure : q.cursor.measure = p.cursor.measure := hsteps.sameMeasure.trans hmeasure₁
      refine ⟨hq, fun object hobject => ?_, fun _ => ?_,
        [.barline .simple p.cursor.measure 1], .inr ⟨_, rfl⟩, ?_⟩
      · exact Nat.lt_succ_of_le (hmeasure ▸ (hq.behind object hobject).1)
      · obtain ⟨object, hobject, hin⟩ := hread₂.bears hmusic hbears
        exact ⟨object, hobject, by rw [hin, hmeasure₁]; rfl⟩
      · rw [hsteps.structuralMarks_eq, hmarks₁, marksFrom, marksFrom, Frame.marks, hshape]
        simp

end ReadsMusic

/-! ## The order in which marks are read -/

/-- A list in which `q` goes on once it holds has first what `q` does not hold of. -/
theorem filter_append_filter_of_pairwise {α : Type} {q : α → Bool} {xs : List α}
    (h : xs.Pairwise fun a b => q a = true → q b = true) :
    xs.filter (fun a => !q a) ++ xs.filter q = xs := by
  induction xs with
  | nil => rfl
  | cons x xs ih =>
      obtain ⟨hx, hxs⟩ := List.pairwise_cons.mp h
      cases hq : q x with
      | false => simpa [hq] using ih hxs
      | true =>
          have hall := List.filter_eq_self.mpr fun y hy => hx y hy hq
          have hnone : xs.filter (fun a => !q a) = [] :=
            List.filter_eq_nil_iff.mpr fun y hy => by simp [hx y hy hq]
          simp [hq, hall, hnone]

namespace Part.IsLaidOut

variable [RoundedTime τ] {p : Part τ} {score : Score τ}

omit [RoundedTime τ] in
/-- Brackets and barlines are read as they are written. -/
theorem filter_repeatMarks (h : p.IsLaidOut) (ht : score.firstTimeline = p.timeline) :
    (repeatMarks score).filter (fun mark => !mark.isMusic) = p.structuralMarks := by
  rw [ScorePlayback.filter_repeatMarks, writtenMarks, ht]
  · rfl
  · rw [ht, List.pairwise_filter]
    exact h.pairwise.imp_of_mem fun _ hb hab hstructural hstructural' =>
      hab.1 hstructural ((h.behind _ hb).2 hstructural').2.1

omit [RoundedTime τ] in
/-- Between objects that have a time, no music is read before a bracket or barline that does not
admit its measure. -/
theorem pairwise_admits (h : p.IsLaidOut) :
    ((inTimeOrder p.timeline).map Prod.fst).Pairwise fun a b =>
      a.HasTime → ∀ mark ∈ RepeatMark.ofObject? b, mark.Admits a.measure := by
  have hstay : p.timeline.Pairwise fun x y => (x.Refuses y ∧ y.HasTime) → x.MayPrecede y := by
    refine h.pairwise.imp fun {x y} hxy ⟨hrefuses, htimed⟩ => hxy.1 ?_ htimed
    obtain ⟨mark, hmark, hnot⟩ := hrefuses
    rw [StaffObject.isStructural, Option.mem_def.mp hmark]
    cases mark with
    | music measure => exact absurd trivial hnot
    | volta ending start span => rfl
    | barline shape last times => rfl
  have hbefore : p.timeline.Pairwise fun x y => ¬ (y.Refuses x ∧ x.HasTime) := by
    refine h.pairwise.imp fun hxy ⟨hrefuses, _⟩ => ?_
    obtain ⟨mark, hmark, hnot⟩ := hrefuses
    exact hnot (hxy.2 mark hmark)
  refine (pairwise_inTimeOrder_not hstay hbefore).imp fun hxy htimed mark hmark => ?_
  exact not_not.mp fun hnot => hxy ⟨⟨mark, hmark, hnot⟩, htimed⟩

/-- What has no time is read first. It is music, and among the other marks no music is read
before a bracket or barline that does not admit its measure. -/
theorem exists_repeatMarks_eq (h : p.IsLaidOut) (ht : score.firstTimeline = p.timeline) :
    ∃ early late, repeatMarks score = early ++ late ∧ (∀ mark ∈ early, mark.isMusic = true) ∧
      late.Pairwise fun a b => a.isMusic = true → b.Admits a.measure := by
  generalize hobjects : (inTimeOrder p.timeline).map Prod.fst = objects
  have hmem : ∀ object ∈ objects, object ∈ p.timeline := by
    intro object hobject
    obtain ⟨entry, hentry, rfl⟩ := List.mem_map.mp (hobjects ▸ hobject)
    exact (List.mem_zipIdx ((stableSort_perm _ _).mem_iff.mp hentry)).2.2 ▸ List.getElem_mem _
  have hsorted : objects.Pairwise fun a b => decide a.HasTime = true → decide b.HasTime = true := by
    rw [← hobjects, List.pairwise_map]
    refine (stableSort_pairwise notAfter_trans notAfter_total
      (List.pairwise_of_forall fun _ _ => trivial)).imp fun hab htimed => ?_
    have hle := (notAfter_iff_le.mp hab.1).1
    exact decide_eq_true (OrderedTime.trans (of_decide_eq_true htimed) hle)
  have hadmits := hobjects ▸ h.pairwise_admits
  refine ⟨(objects.filter fun a => !decide a.HasTime).filterMap RepeatMark.ofObject?,
    (objects.filter fun a => decide a.HasTime).filterMap RepeatMark.ofObject?, ?_, ?_, ?_⟩
  · rw [repeatMarks_eq, ht, hobjects, ← List.filterMap_append,
      filter_append_filter_of_pairwise hsorted]
  · intro mark hmark
    obtain ⟨object, hobject, hof⟩ := List.mem_filterMap.mp hmark
    obtain ⟨hobject, hlost⟩ := List.mem_filter.mp hobject
    by_contra hmusic
    have hstructural : object.isStructural = true := by
      simpa [StaffObject.isStructural, hof] using hmusic
    have htimed := ((h.behind object (hmem object hobject)).2 hstructural).2.1
    simp [htimed] at hlost
  · rw [List.pairwise_filterMap, List.pairwise_filter]
    refine hadmits.imp fun hab htimed _ mark hmark mark' hmark' _ => ?_
    rw [RepeatMark.measure_of_ofObject? hmark]
    exact hab (of_decide_eq_true htimed) mark' hmark'

end Part.IsLaidOut

end ScorePlayback
