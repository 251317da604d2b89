import ScorePlayback.Proofs.Analysis.Alterations
import ScorePlayback.Proofs.Analysis.TurningBack

/-! # Which notes accidentals carry to

A note without an accidental takes over the last one for its step and octave that stands in front of
it in its measure. In front of it means so in the text and on the timeline. In time it may be behind
it, but only if the music has been turned back between the two. -/

namespace ScorePlayback

/-! ## Notes that sound -/

namespace PitchEvent

/-- An event without the alteration of a note. -/
def unaltered : PitchEvent → PitchEvent
  | .note p => .note { p with alter := 0 }
  | event => event

theorem carried_map_unaltered (step : Step) (octave : Int) (events : List PitchEvent) :
    carried step octave (events.map unaltered) = carried step octave events := by
  induction events using List.reverseRecOn with
  | nil => rfl
  | append_singleton events event ih =>
      rw [List.map_append, List.map_singleton, carried_concat, carried_concat, ih]
      cases event <;> rfl

theorem latestKey_map_unaltered (events : List PitchEvent) :
    latestKey (events.map unaltered) = latestKey events := by
  rw [latestKey, List.filterMap_map]
  congr 2
  funext event
  cases event <;> rfl

theorem unaltered_sounding (earlier : List PitchEvent) (event : PitchEvent) :
    (event.sounding earlier).unaltered = event.unaltered := by
  cases event <;> rfl

variable {events heard : List PitchEvent}

theorem AreSounding.map_unaltered (h : AreSounding events heard) :
    heard.map unaltered = events.map unaltered := by
  refine List.ext_getElem? fun number => ?_
  rw [List.getElem?_map, List.getElem?_map, h number, Option.map_map]
  exact Option.map_congr fun event _ => unaltered_sounding _ event

/-- What a note sounds like follows from what is heard in front of it. -/
theorem AreSounding.alter_eq (h : AreSounding events heard) {front behind : List PitchEvent}
    {q : Pitch} (hheard : heard = front ++ .note q :: behind) : q.alter = alteration front q := by
  have hq := h front.length
  rw [hheard, List.getElem?_append_right le_rfl, Nat.sub_self, List.getElem?_cons_zero] at hq
  obtain ⟨event, -, hevent⟩ := Option.map_eq_some_iff.mp hq.symm
  have hfront : front.map unaltered = (events.take front.length).map unaltered := by
    rw [List.map_take, ← h.map_unaltered, hheard, List.map_append, List.take_left' (by simp)]
  cases event with
  | note p =>
      obtain rfl : { p with alter := alteration (events.take front.length) p } = q :=
        PitchEvent.note.inj hevent
      unfold alteration
      dsimp only
      rw [← carried_map_unaltered _ _ front, ← latestKey_map_unaltered front, hfront,
        carried_map_unaltered, latestKey_map_unaltered]
  | key signature => cases hevent
  | barline => cases hevent

end PitchEvent

/-! ## Accidentals and keys on a timeline -/

variable {τ : Type}

theorem StaffObject.isBarline_eq (object : StaffObject τ) :
    object.isBarline = match object.symbol with
      | .barline .. => true
      | _ => false := by
  rw [Bool.eq_iff_iff, isBarline_iff]
  cases object.symbol <;> simp

def StaffObject.key? (object : StaffObject τ) : Option KeySignature :=
  match object.symbol with
  | .key signature => some signature
  | _ => none

namespace Score

variable (score : Score τ)

/-- The pitch of the note that an object is. -/
def pitchAt (object : StaffObject τ) : Option Pitch :=
  match object.symbol with
  | .noteRest number => score.notes[number]?.bind NoteRest.pitch
  | _ => none

/-- The accidental that is written on an object, if it is a note of this step and octave. -/
def accidentalAt (step : Step) (octave : Int) (object : StaffObject τ) : Option Int :=
  (score.pitchAt object).bind fun p =>
    if p.step = step ∧ p.octave = octave then p.accidental else none

/-- The events of some objects, as they sound. -/
def eventsOf (objects : List (StaffObject τ)) : List PitchEvent :=
  objects.filterMap fun object => object.symbol.pitchEvent? (score.notes.map NoteRest.pitch)

theorem pitchEvent?_noteRest {object : StaffObject τ} {number : Nat}
    (h : object.symbol = .noteRest number) :
    object.symbol.pitchEvent? (score.notes.map NoteRest.pitch) =
      (score.pitchAt object).map .note := by
  simp only [pitchAt, h, StaffSymbol.pitchEvent?, List.getElem?_map]
  cases score.notes[number]? <;> rfl

theorem pitchEvent?_of_pitchAt {object : StaffObject τ} {p : Pitch}
    (h : score.pitchAt object = some p) :
    object.symbol.pitchEvent? (score.notes.map NoteRest.pitch) = some (.note p) := by
  cases hsymbol : object.symbol with
  | noteRest number =>
      rw [← hsymbol, score.pitchEvent?_noteRest hsymbol, h]
      rfl
  | _ => simp [pitchAt, hsymbol] at h

theorem eventsOf_concat (objects : List (StaffObject τ)) (object : StaffObject τ) :
    score.eventsOf (objects ++ [object]) = score.eventsOf objects ++
      (object.symbol.pitchEvent? (score.notes.map NoteRest.pitch)).toList := by
  rw [eventsOf, List.filterMap_append, List.filterMap_eq_flatMap_toList (l := [object]),
    List.flatMap_singleton]
  rfl

/-- One more object carries its own accidental on, and a barline none. -/
theorem carried_eventsOf_concat (step : Step) (octave : Int) (objects : List (StaffObject τ))
    (object : StaffObject τ) :
    PitchEvent.carried step octave (score.eventsOf (objects ++ [object])) =
      if object.isBarline then none
      else (score.accidentalAt step octave object).or
        (PitchEvent.carried step octave (score.eventsOf objects)) := by
  rw [eventsOf_concat]
  cases hsymbol : object.symbol with
  | noteRest number =>
      have hbarline : object.isBarline = false := by rw [object.isBarline_eq, hsymbol]
      rw [← hsymbol, score.pitchEvent?_noteRest hsymbol, hbarline, accidentalAt]
      cases score.pitchAt object with
      | none => simp
      | some p => exact PitchEvent.carried_concat ..
  | barline shape times =>
      have hbarline : object.isBarline = true := by rw [object.isBarline_eq, hsymbol]
      rw [hbarline]
      exact PitchEvent.carried_concat ..
  | key signature =>
      simp [StaffSymbol.pitchEvent?, PitchEvent.carried_concat, object.isBarline_eq, accidentalAt,
        pitchAt, hsymbol, PitchEvent.isBarline, PitchEvent.accidental?]
  | _ => simp [StaffSymbol.pitchEvent?, object.isBarline_eq, accidentalAt, pitchAt, hsymbol]

theorem latestKey_eventsOf (objects : List (StaffObject τ)) :
    PitchEvent.latestKey (score.eventsOf objects) =
      (objects.filterMap StaffObject.key?).getLast? := by
  rw [PitchEvent.latestKey, eventsOf, List.filterMap_filterMap]
  congr 2
  funext object
  cases hsymbol : object.symbol with
  | noteRest number =>
      rw [← hsymbol, score.pitchEvent?_noteRest hsymbol, StaffObject.key?, hsymbol]
      cases score.pitchAt object <;> rfl
  | _ => simp [StaffSymbol.pitchEvent?, StaffObject.key?, hsymbol, PitchEvent.key?]

variable {score} {step : Step} {octave : Int} {objects : List (StaffObject τ)}

/-- An accidental that is carried on is the last one that is written, with no barline behind it. -/
theorem exists_accidentalAt {alter : Int}
    (h : PitchEvent.carried step octave (score.eventsOf objects) = some alter) :
    ∃ before a between, objects = before ++ a :: between ∧
      score.accidentalAt step octave a = some alter ∧
      ∀ object ∈ between, object.isBarline = false ∧
        score.accidentalAt step octave object = none := by
  induction objects using List.reverseRecOn with
  | nil => cases h
  | append_singleton objects object ih =>
      rw [carried_eventsOf_concat] at h
      cases hbarline : object.isBarline with
      | true => simp [hbarline] at h
      | false =>
          rw [hbarline, if_neg Bool.false_ne_true] at h
          cases haccidental : score.accidentalAt step octave object with
          | some own =>
              rw [haccidental, Option.some_or] at h
              exact ⟨objects, object, [], rfl, haccidental.trans h, nofun⟩
          | none =>
              rw [haccidental, Option.none_or] at h
              obtain ⟨before, a, between, rfl, ha, hbetween⟩ := ih h
              refine ⟨before, a, between ++ [object], by simp, ha, ?_⟩
              exact List.forall_mem_append.mpr ⟨hbetween,
                List.forall_mem_singleton.mpr ⟨hbarline, haccidental⟩⟩

/-- If none is carried on, none has been written since the last barline. -/
theorem accidentalAt_eq_none
    (h : PitchEvent.carried step octave (score.eventsOf objects) = none)
    {before between : List (StaffObject τ)} {a : StaffObject τ}
    (hobjects : objects = before ++ a :: between)
    (hbetween : ∀ object ∈ between, object.isBarline = false) (ha : a.isBarline = false) :
    score.accidentalAt step octave a = none := by
  subst hobjects
  induction between using List.reverseRecOn with
  | nil =>
      rw [carried_eventsOf_concat, ha, if_neg Bool.false_ne_true, Option.or_eq_none_iff] at h
      exact h.1
  | append_singleton between object ih =>
      obtain ⟨hbefore, hobject⟩ := List.forall_mem_append.mp hbetween
      rw [← List.cons_append, ← List.append_assoc, carried_eventsOf_concat,
        hobject object (List.mem_singleton_self _), if_neg Bool.false_ne_true,
        Option.or_eq_none_iff] at h
      exact ih hbefore h.2

end Score

/-! ## Measures on a timeline -/

theorem measure_of_isCounted {timeline before between behind : List (StaffObject Rat)}
    {a b : StaffObject Rat} (h : IsCounted timeline)
    (ht : timeline = before ++ a :: (between ++ b :: behind)) :
    b.measure = a.measure + (a :: between).countP StaffObject.isBarline := by
  subst ht
  have ha := h before.length a (by simp)
  have hb := h (before ++ a :: between).length b (by
    rw [← List.cons_append, ← List.append_assoc, Option.mem_def,
      List.getElem?_append_right le_rfl, Nat.sub_self, List.getElem?_cons_zero])
  dsimp only at ha hb
  rw [List.take_left] at ha
  rw [← List.cons_append, ← List.append_assoc, List.take_left, List.countP_append, ← Nat.add_assoc,
    ← ha] at hb
  exact hb

/-! ## Scores -/

/-- Where a note without an accidental has its alteration from, behind some objects in front of it
on a timeline: from the last accidental of its measure that is for its step and octave, or else from
the key. The note with this accidental is not later in time, or one of the moves back in the tree
stands between the two. -/
inductive Score.Alters (tree : Node) (score : Score Rat) (front : List (StaffObject Rat))
    (b : StaffObject Rat) (q : Pitch) : Prop where
  | accidental {before between : List (StaffObject Rat)} {a : StaffObject Rat}
      (hfront : front = before ++ a :: between) (hmeasure : a.measure = b.measure)
      (halter : score.accidentalAt q.step q.octave a = some q.alter)
      (hlast : ∀ object ∈ between, score.accidentalAt q.step q.octave object = none)
      (horder : a.InOrder (Node.IsWithin · tree) b)
  | key (hnone : ∀ a ∈ front, a.measure = b.measure →
        score.accidentalAt q.step q.octave a = none)
      (halter : q.alter =
        ((front.filterMap StaffObject.key?).getLast?.getD .cMajor).alterFor q.step)

/-- All notes without accidentals have their alterations in this way. -/
def Score.CarriesAccidentals (tree : Node) (score : Score Rat) (i : Instrument Rat) : Prop :=
  ∀ front b behind q, i.timeline = front ++ b :: behind → score.pitchAt b = some q →
    q.accidental = none → score.Alters tree front b q

theorem Score.isBarline_of_accidentalAt {τ : Type} {score : Score τ} {step : Step} {octave : Int}
    {object : StaffObject τ} {alter : Int}
    (h : score.accidentalAt step octave object = some alter) : object.isBarline = false := by
  cases hsymbol : object.symbol with
  | barline shape times => simp [accidentalAt, pitchAt, hsymbol] at h
  | _ => rw [object.isBarline_eq, hsymbol]

/-- From an object up to another one of its measure there is no barline. -/
theorem isBarline_of_measure_eq {timeline before between behind : List (StaffObject Rat)}
    {a b : StaffObject Rat} (h : IsCounted timeline)
    (ht : timeline = before ++ a :: (between ++ b :: behind)) (hmeasure : a.measure = b.measure) :
    ∀ object ∈ a :: between, object.isBarline = false := by
  have hcount := measure_of_isCounted h ht
  rw [← hmeasure, eq_comm, Nat.add_eq_left, List.countP_eq_zero] at hcount
  exact fun object hobject => Bool.eq_false_of_not_eq_true (hcount object hobject)

theorem Score.carriesAccidentals_of_areSounding {tree : Node} {score : Score Rat}
    {i : Instrument Rat} {events : List PitchEvent}
    (hsounding : PitchEvent.AreSounding events (score.pitchEvents i))
    (hcounted : IsCounted i.timeline)
    (horder : i.timeline.Pairwise (StaffObject.InOrder (Node.IsWithin · tree))) :
    score.CarriesAccidentals tree i := by
  intro front b behind q ht hq hplain
  have hheard : score.pitchEvents i = score.eventsOf front ++ .note q :: score.eventsOf behind := by
    have hb := score.pitchEvent?_of_pitchAt hq
    simp [pitchEvents, eventsOf, ht, hb]
  have halter := hsounding.alter_eq hheard
  unfold PitchEvent.alteration at halter
  rw [hplain] at halter
  cases hcarried : PitchEvent.carried q.step q.octave (score.eventsOf front) with
  | some alter =>
      rw [hcarried] at halter
      obtain ⟨before, a, between, rfl, ha, hbetween⟩ := exists_accidentalAt hcarried
      rw [List.append_assoc, List.cons_append] at ht
      have hcount : (a :: between).countP StaffObject.isBarline = 0 := by
        refine List.countP_eq_zero.mpr fun object hobject => Bool.eq_false_iff.mp ?_
        rcases List.mem_cons.mp hobject with rfl | hobject
        · exact isBarline_of_accidentalAt ha
        · exact (hbetween object hobject).1
      have hmeasure := measure_of_isCounted hcounted ht
      rw [hcount, Nat.add_zero] at hmeasure
      rw [ht, List.pairwise_append, List.pairwise_cons] at horder
      exact .accidental rfl hmeasure.symm (ha.trans (congrArg some halter.symm))
        (fun object hobject => (hbetween object hobject).2) (horder.2.1.1 b (by simp))
  | none =>
      rw [hcarried, latestKey_eventsOf] at halter
      refine .key (fun a ha hmeasure => ?_) ?_
      · obtain ⟨before, between, rfl⟩ := List.append_of_mem ha
        rw [List.append_assoc, List.cons_append] at ht
        have hbarlines := isBarline_of_measure_eq hcounted ht hmeasure
        obtain ⟨ha, hbetween⟩ := List.forall_mem_cons.mp hbarlines
        exact accidentalAt_eq_none hcarried rfl hbetween ha
      · cases hkey : (front.filterMap StaffObject.key?).getLast? with
        | some signature =>
            rw [hkey] at halter
            exact halter
        | none =>
            rw [hkey] at halter
            exact halter

/-! ## Analysed texts -/

/-- Where two elements of music are read one after the other, they are so in the text. -/
theorem pairwise_positions_musicOf {source : String} {tree : Node} (h : parse source = .ok tree)
    {elements : List Node} {position : Position}
    (hwithin : (Node.element .instrument elements position).IsWithin tree) :
    (Node.positionsOf (musicOf elements)).Pairwise Position.Before :=
  (pairwise_positions_of_parse h).sublist <|
    (Node.positionsOf_musicOf_sublist elements).trans <|
      (List.sublist_cons_self _ _).trans hwithin.positions_sublist

theorem inOrder_of_analyse {settings : Settings} {source : String} {tree : Node}
    {analysis : Analysis Rat} (htree : parse source = .ok tree)
    (h : analyse settings tree = .ok analysis) {score : Score Rat}
    (hscore : score ∈ analysis.document.scores) {i : Instrument Rat} (hi : i ∈ score.instruments) :
    i.timeline.Pairwise (StaffObject.InOrder (Node.IsWithin · tree)) := by
  obtain ⟨node, title, hnode, rfl⟩ := exists_element_of_analyse h hscore
  obtain ⟨elements, position, linking, hmem, rfl⟩ := exists_element_of_analyseScore hi
  have hwithin : (Node.element .instrument elements position).IsWithin tree :=
    (Node.isWithin_of_mem_children hmem).trans hnode
  have hturns := Part.TurnsAt.initial.readsMusic
    (InstrumentState.foldl_readsMusic settings (.start settings linking) elements)
    (pairwise_positions_musicOf htree hwithin)
  exact hturns.inOrder.imp fun hab =>
    hab.mono fun turn hturn => (Node.isWithin_of_mem_musicOf hturn).trans hwithin

theorem exists_areSounding_of_analyse {settings : Settings} {tree : Node} {analysis : Analysis Rat}
    (h : analyse settings tree = .ok analysis) {score : Score Rat}
    (hscore : score ∈ analysis.document.scores) {i : Instrument Rat} (hi : i ∈ score.instruments) :
    ∃ events, PitchEvent.AreSounding events (score.pitchEvents i) := by
  obtain ⟨children, title, rfl⟩ := exists_analyseScore_of_analyse h hscore
  have hstart : ({} : ScoreState Rat).HasRead settings [] := .nil
  have hread := hstart.foldl_read children
  obtain ⟨number, hnumber, rfl⟩ := List.getElem_of_mem hi
  exact ⟨_, (hread.get hnumber (hread.length_eq ▸ hnumber)).sounding⟩

/-- Accidentals carry on in the order of the text. That is the order of time, too, unless a move
back stands between the accidental and the note that it carries to. Times are exact here, as
they are where timelines turn back. -/
theorem carriesAccidentals_of_compile {settings : Settings} {source : String}
    {analysis : Analysis Rat} (h : compile settings source = .ok analysis) :
    ∃ tree, parse source = .ok tree ∧ ∀ score ∈ analysis.document.scores,
      ∀ i ∈ score.instruments, score.CarriesAccidentals tree i := by
  obtain ⟨tree, htree, hanalyse⟩ := analyse_of_compile h
  refine ⟨tree, htree, fun score hscore i hi => ?_⟩
  obtain ⟨events, hsounding⟩ := exists_areSounding_of_analyse hanalyse hscore hi
  obtain ⟨part, hsteps, htimeline⟩ := obeys_musicSteps_of_analyse hanalyse hscore i hi
  exact Score.carriesAccidentals_of_areSounding hsounding
    (htimeline ▸ (Part.IsMeasured.of_steps hsteps).counted)
    (inOrder_of_analyse htree hanalyse hscore hi)

/-- The second voice is written behind a move back to where the sharp stands, so it takes the sharp
over. Behind the barline the natural of the key is back. -/
theorem carriesAccidentals_twoVoices :
    let source := "(score (instrument (musicData (n f4 q) (n +g4 q) (n g4 q) (goBack h) " ++
      "(n g4 q v2) (n f4 q) (barline) (n g4 q))))"
    ∃ analysis : Analysis Rat, compile {} source = .ok analysis ∧
      (analysis.document.scores.map fun score => score.instruments.map fun i =>
        i.timeline.map fun object => (object.time, (score.pitchAt object).map Pitch.alter)) =
          [[[(0, some 0), (64, some 1), (128, some 1), (64, some 1), (128, some 0), (192, none),
            (192, some 0)]]] ∧
      ∃ tree, parse source = .ok tree ∧ ∀ score ∈ analysis.document.scores,
        ∀ i ∈ score.instruments, score.CarriesAccidentals tree i := by
  intro source
  have ⟨analysis, h, halters⟩ : ∃ analysis : Analysis Rat, compile {} source = .ok analysis ∧
      (analysis.document.scores.map fun score => score.instruments.map fun i =>
        i.timeline.map fun object => (object.time, (score.pitchAt object).map Pitch.alter)) =
          [[[(0, some 0), (64, some 1), (128, some 1), (64, some 1), (128, some 0), (192, none),
            (192, some 0)]]] :=
    exists_compile_of_characters String.ofList_append.symm (by decide +kernel)
  exact ⟨analysis, h, halters, carriesAccidentals_of_compile h⟩

/-- The note behind the move back is at the start of the measure. It has the sharp of the note that
comes a quarter later, which is the only accidental there is. -/
theorem accidental_carriesBackInTime :
    let source := "(score (vers 2.0) (instrument (musicData (n c4 q v1)(n +f4 q v1)" ++
      "(goBack start)(n f4 q v2))))"
    ∃ analysis : Analysis Rat, compile {} source = .ok analysis ∧
      ∃ score ∈ analysis.document.scores, ∃ i ∈ score.instruments,
        i.timeline.filterMap StaffObject.key? = [] ∧
        ∃ a ∈ i.timeline, ∃ b ∈ i.timeline, a.measure = b.measure ∧ b.time < a.time ∧
          ∃ q ∈ score.pitchAt b, q.accidental = none ∧
            q.alter ≠ KeySignature.cMajor.alterFor q.step ∧
            (i.timeline.filter fun object =>
              (score.accidentalAt q.step q.octave object).isSome).map StaffObject.position =
                [a.position] ∧
            score.accidentalAt q.step q.octave a = some q.alter := by
  intro source
  exact exists_compile_of_characters String.ofList_append.symm (by decide +kernel)

end ScorePlayback
