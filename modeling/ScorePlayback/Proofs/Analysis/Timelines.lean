import ScorePlayback.Proofs.Analysis.PartSteps

/-! # The timelines of analysed scores

Each instrument of an analysed score has a part that has grown from nothing by the steps of its
elements, in any number of blocks of music. -/

namespace ScorePlayback

variable {τ : Type} [TimeValue τ]

/-- What may stand inside a measure. -/
def StaffObject.IsOrdinary (object : StaffObject τ) : Prop :=
  match object.symbol with
  | .barline _ _ => False
  | .volta _ _ => object.voice = 0
  | _ => True

/-- A step inside a measure, or a barline. -/
def GrowthStep (p p' : Part τ) : Prop :=
  PartStep StaffObject.IsOrdinary p p' ∨
    ∃ shape times object, ClosesMeasure p p' shape times object

abbrev Grows : Part τ → Part τ → Prop := Relation.ReflTransGen GrowthStep

omit [TimeValue τ] in
theorem StaffObject.isOrdinary_of_places {n : Node} {object : StaffObject τ}
    (h : n.Places object) : object.IsOrdinary := by
  cases hs : object.symbol <;> simp_all [Node.Places, IsOrdinary]

theorem grows_of_partSteps {p p' : Part τ} (h : PartSteps StaffObject.IsOrdinary p p') :
    Grows p p' :=
  Relation.ReflTransGen.mono (fun _ _ => Or.inl) p p' h

/-! ## From elements to instruments -/

/-- A law of parts that holds before any music, and that each element of music keeps. -/
structure IsPartLaw (settings : Settings) (law : Part τ → Prop) : Prop where
  initial : law .initial
  read (s : Passage τ) (child : Node) : law s.part → law (Passage.read settings s child).part

/-- The timeline of the instrument is that of a part with a law. -/
def Instrument.Obeys (law : Part τ → Prop) (i : Instrument τ) : Prop :=
  ∃ part, law part ∧ i.timeline = part.timeline

def Score.Obeys (law : Part τ → Prop) (score : Score τ) : Prop :=
  ∀ i ∈ score.instruments, i.Obeys law

namespace IsPartLaw

variable {settings : Settings} {law : Part τ → Prop}

theorem readInstrument (hlaw : IsPartLaw settings law) {s : InstrumentState τ} (h : law s.part)
    (child : Node) : law (InstrumentState.read settings s child).part := by
  unfold InstrumentState.read
  split
  · split <;> exact h
  · split <;> exact h
  · split <;> exact h
  · next children _ =>
    exact List.foldlRecOn (motive := fun s' : Passage τ => law s'.part) children _ h
      fun s' hs child _ => hlaw.read s' child hs
  · exact h

theorem foldl_readInstrument (hlaw : IsPartLaw settings law) (linking : Linking τ)
    (children : List Node) :
    law (children.foldl (InstrumentState.read settings) (.start settings linking)).part :=
  List.foldlRecOn (motive := fun s : InstrumentState τ => law s.part) children _ hlaw.initial
    fun _ hs child _ => hlaw.readInstrument hs child

/-! ## From instruments to scores -/

theorem readScore (hlaw : IsPartLaw settings law) {s : ScoreState τ} (h : s.header.Obeys law)
    (child : Node) : (ScoreState.read settings s child).header.Obeys law := by
  unfold ScoreState.read
  split
  · split <;> exact h
  · split <;> exact h
  · split <;> exact h
  · next children _ =>
    intro i hi
    rcases List.mem_append.mp hi with hi | hi
    · exact h i hi
    · rw [List.mem_singleton.mp hi]
      exact ⟨_, hlaw.foldl_readInstrument s.linking children, rfl⟩
  · exact h

theorem analyseScore (hlaw : IsPartLaw settings law) (children : List Node) :
    (ScorePlayback.analyseScore settings children : ScoreAnalysis τ).score.Obeys law := by
  have h : (children.foldl (ScoreState.read settings) ({} : ScoreState τ)).header.Obeys law := by
    refine List.foldlRecOn (motive := fun s : ScoreState τ => s.header.Obeys law) children _ ?_
      fun s hs child _ => hlaw.readScore hs child
    simp [Score.Obeys]
  exact h

end IsPartLaw

/-! ## From scores to documents -/

namespace Analysis

variable {settings : Settings}

/-- Apart from their titles, all scores that have been read so far are analysed scores. -/
def IsAnalysed (settings : Settings) (a : Analysis τ) : Prop :=
  ∀ score, .score score ∈ a.document.content →
    ∃ children title, score = { (analyseScore settings children).score with title }

theorem isAnalysed_addScore {a : Analysis τ} (h : a.IsAnalysed settings) (children : List Node) :
    (a.addScore (analyseScore settings children)).IsAnalysed settings := by
  intro score hs
  rcases List.mem_append.mp hs with hs | hs
  · exact h score hs
  · rw [List.mem_singleton] at hs
    obtain rfl := ContentItem.score.inj hs
    exact ⟨children, _, rfl⟩

omit [TimeValue τ] in
/-- A title changes nothing else. -/
theorem exists_score_of_retitle? {title : String} {items items' : List (ContentItem τ)}
    (h : retitle? title items = some items') {score : Score τ} (hs : .score score ∈ items') :
    ∃ score' title', .score score' ∈ items ∧ score = { score' with title := title' } := by
  induction items generalizing items' with
  | nil => simp [retitle?] at h
  | cons item rest ih =>
      unfold retitle? at h
      split at h
      · next rest' _ hrest =>
        rw [← Option.some.inj h] at hs
        rcases List.mem_cons.mp hs with hs | hs
        · exact ⟨score, score.title, by simp [hs], rfl⟩
        · obtain ⟨score', title', hmem, heq⟩ := ih hrest hs
          exact ⟨score', title', by simp [hmem], heq⟩
      · next old _ =>
        rw [← Option.some.inj h] at hs
        rcases List.mem_cons.mp hs with hs | hs
        · exact ⟨old, some title, by simp, ContentItem.score.inj hs⟩
        · exact ⟨score, score.title, by simp [hs], rfl⟩
      · simp at h

theorem isAnalysed_readItem {a : Analysis τ} (h : a.IsAnalysed settings) (child : Node) :
    (readItem settings a child).IsAnalysed settings := by
  unfold readItem
  split
  · exact isAnalysed_addScore h _
  · intro score hs
    rcases List.mem_append.mp hs with hs | hs
    · exact h score hs
    · simp at hs
  · unfold addTitle
    split
    · exact h
    · split
      · next content hcontent =>
        intro score hs
        obtain ⟨score', title, hmem, rfl⟩ := exists_score_of_retitle? hcontent hs
        obtain ⟨children, _, rfl⟩ := h score' hmem
        exact ⟨children, title, rfl⟩
      · exact h
  · exact h

theorem isAnalysed_read {a : Analysis τ} (h : a.IsAnalysed settings) (child : Node) :
    (Analysis.read settings a child).IsAnalysed settings := by
  unfold Analysis.read
  split
  · split <;> exact h
  · exact List.foldlRecOn (motive := IsAnalysed settings) _ _ h
      fun b hb item _ => isAnalysed_readItem hb item
  · exact h

end Analysis

/-- Each score of a document is what its element is analysed to, up to the title. -/
theorem exists_analyseScore_of_analyse {settings : Settings} {tree : Node} {analysis : Analysis τ}
    (h : analyse settings tree = .ok analysis) {score : Score τ}
    (hs : score ∈ analysis.document.scores) :
    ∃ children title, score = { (analyseScore settings children).score with title } := by
  have hempty : (Analysis.empty : Analysis τ).IsAnalysed settings := by
    intro score hs
    simp [Analysis.empty] at hs
  have hanalysed : analysis.IsAnalysed settings := by
    unfold analyse analyse? at h
    split at h
    · next analysis' ha =>
      rw [← Except.ok.inj h]
      split at ha
      · next children _ =>
        rw [← Option.some.inj ha]
        exact List.foldlRecOn (motive := Analysis.IsAnalysed settings) children _ hempty
          fun a ha child _ => Analysis.isAnalysed_read ha child
      · rw [← Option.some.inj ha]
        exact Analysis.isAnalysed_addScore hempty _
      · simp at ha
    · simp at h
  obtain ⟨item, hitem, hscore⟩ := List.mem_filterMap.mp hs
  cases item with
  | score s =>
      rw [← Option.some.inj hscore]
      exact hanalysed s hitem
  | paragraph text => simp at hscore

/-- The parts of the scores of a document obey each law that elements of music keep. -/
theorem IsPartLaw.obeys_of_analyse {settings : Settings} {law : Part τ → Prop}
    (hlaw : IsPartLaw settings law) {tree : Node} {analysis : Analysis τ}
    (h : analyse settings tree = .ok analysis) {score : Score τ}
    (hs : score ∈ analysis.document.scores) : score.Obeys law := by
  obtain ⟨children, title, rfl⟩ := exists_analyseScore_of_analyse h hs
  exact hlaw.analyseScore children

/-! ## Growth -/

theorem Passage.read_grows (settings : Settings) (s : Passage τ) (child : Node) :
    Grows s.part (Passage.read settings s child).part := by
  rcases read_steps settings s child with h | ⟨shape, times, object, -, -, h⟩
  · exact grows_of_partSteps (h.mono fun _ => StaffObject.isOrdinary_of_places)
  · exact .single (.inr ⟨shape, times, object, h⟩)

theorem isPartLaw_grows (settings : Settings) :
    IsPartLaw settings (Grows (.initial : Part τ)) :=
  ⟨.refl, fun s child h => h.trans (s.read_grows settings child)⟩

def Score.IsGrown (score : Score τ) : Prop := score.Obeys (Grows .initial)

/-- The scores of a document are made of parts that have grown from nothing. -/
theorem isGrown_of_analyse {settings : Settings} {tree : Node} {analysis : Analysis τ}
    (h : analyse settings tree = .ok analysis) {score : Score τ}
    (hs : score ∈ analysis.document.scores) : score.IsGrown :=
  (isPartLaw_grows settings).obeys_of_analyse h hs

end ScorePlayback
