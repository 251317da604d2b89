import ScorePlayback.Proofs.Analysis.PartSteps
import ScorePlayback.Proofs.Repeat.Marks

/-! # Reading the music of the first instrument

An instrument may have several blocks of music. Its part reads their elements one after the
other, as if they were one block, though notes inherit nothing from the block before. -/

namespace ScorePlayback

variable {τ : Type} [TimeValue τ]

/-- A part has read elements of music, each inside some block. -/
inductive ReadsMusic (settings : Settings) : Part τ → List Node → Part τ → Prop where
  | nil (p : Part τ) : ReadsMusic settings p [] p
  | cons {p q : Part τ} {child : Node} {rest : List Node} (s : Passage τ) (hs : s.part = p) :
      ReadsMusic settings (Passage.read settings s child).part rest q →
      ReadsMusic settings p (child :: rest) q

namespace ReadsMusic

variable {settings : Settings} {p q r : Part τ} {first second : List Node}

theorem append (h : ReadsMusic settings p first q) (h' : ReadsMusic settings q second r) :
    ReadsMusic settings p (first ++ second) r := by
  induction h with
  | nil => exact h'
  | cons s hs _ ih => exact .cons s hs (ih h')

theorem exists_of_append (h : ReadsMusic settings p (first ++ second) r) :
    ∃ q, ReadsMusic settings p first q ∧ ReadsMusic settings q second r := by
  induction first generalizing p with
  | nil => exact ⟨p, .nil p, h⟩
  | cons child rest ih =>
      cases h with
      | cons s hs h =>
          obtain ⟨q, hfirst, hsecond⟩ := ih h
          exact ⟨q, .cons s hs hfirst, hsecond⟩

end ReadsMusic

theorem Passage.foldl_readsMusic (settings : Settings) (s : Passage τ) (children : List Node) :
    ReadsMusic settings s.part children (children.foldl (Passage.read settings) s).part := by
  induction children generalizing s with
  | nil => exact .nil _
  | cons child rest ih => exact .cons s rfl (ih (Passage.read settings s child))

/-! ## Instruments and scores -/

def Node.isInstrument (n : Node) : Bool := n.kind = .element .instrument

theorem Node.exists_of_isInstrument {n : Node} (h : n.isInstrument = true) :
    ∃ children position, n = .element .instrument children position := by
  cases n with
  | atom kind text position => simp [isInstrument, Node.kind] at h
  | element name children position =>
      simp only [isInstrument, Node.kind, NodeKind.element.injEq, decide_eq_true_eq] at h
      exact ⟨children, position, by rw [h]⟩

/-- The elements of music among the children of an instrument. -/
def musicOf (children : List Node) : List Node :=
  children.flatMap fun
    | .element .music elements _ => elements
    | _ => []

theorem musicOf_music (elements : List Node) (position : Position) :
    musicOf [.element .music elements position] = elements := by rw [musicOf, List.flatMap_singleton]

theorem musicOf_cons (child : Node) (rest : List Node) :
    musicOf (child :: rest) = musicOf [child] ++ musicOf rest := by
  rw [musicOf, musicOf, musicOf, ← List.flatMap_append, List.singleton_append]

/-- The elements of music of the first instrument among the children of a score. -/
def firstMusic : List Node → List Node
  | [] => []
  | .element .instrument children _ :: _ => musicOf children
  | _ :: rest => firstMusic rest

theorem firstMusic_cons_other {child : Node} (hchild : child.isInstrument = false)
    (rest : List Node) : firstMusic (child :: rest) = firstMusic rest := by
  cases child with
  | atom kind text position => rfl
  | element name children position =>
      cases name <;> first | rfl | simp [Node.isInstrument, Node.kind] at hchild

theorem InstrumentState.read_readsMusic (settings : Settings) (s : InstrumentState τ)
    (child : Node) :
    ReadsMusic settings s.part (musicOf [child]) (InstrumentState.read settings s child).part := by
  unfold InstrumentState.read
  split
  · split <;> exact .nil _
  · split <;> exact .nil _
  · split <;> exact .nil _
  · next elements _ =>
    rw [musicOf, List.flatMap_singleton]
    exact Passage.foldl_readsMusic settings { linking := s.linking, part := s.part } elements
  · next hmusic =>
    rw [musicOf, List.flatMap_singleton]
    split
    · exact absurd rfl (hmusic _ _)
    · exact .nil _

theorem InstrumentState.foldl_readsMusic (settings : Settings) (s : InstrumentState τ)
    (children : List Node) :
    ReadsMusic settings s.part (musicOf children)
      (children.foldl (InstrumentState.read settings) s).part := by
  induction children generalizing s with
  | nil => exact .nil _
  | cons child rest ih =>
      have h := (read_readsMusic settings s child).append (ih (read settings s child))
      rwa [← musicOf_cons] at h

namespace ScoreState

/-- What is no instrument adds none, and nothing but problems to the links. -/
theorem read_other (settings : Settings) (s : ScoreState τ) {child : Node}
    (hchild : child.isInstrument = false) :
    (ScoreState.read settings s child).header.instruments = s.header.instruments ∧
      ∃ found, (ScoreState.read settings s child).linking = s.linking.report found := by
  have hsame : ∃ found, s.linking = s.linking.report found :=
    ⟨[], by rw [Linking.report, List.append_nil]⟩
  unfold ScoreState.read
  split
  · split
    · exact ⟨rfl, hsame⟩
    · exact ⟨rfl, _, rfl⟩
  · split
    · exact ⟨rfl, hsame⟩
    · exact ⟨rfl, _, rfl⟩
  · split
    · exact ⟨rfl, hsame⟩
    · exact ⟨rfl, _, rfl⟩
  · simp [Node.isInstrument, Node.kind] at hchild
  · exact ⟨rfl, _, rfl⟩

/-- Instruments that have been read stay where they are. -/
theorem instruments_prefix (settings : Settings) (s : ScoreState τ) (children : List Node) :
    s.header.instruments <+: (children.foldl (ScoreState.read settings) s).header.instruments := by
  have hread (s : ScoreState τ) (child : Node) :
      s.header.instruments <+: (ScoreState.read settings s child).header.instruments := by
    cases hchild : child.isInstrument with
    | false => exact (s.read_other settings hchild).1 ▸ List.prefix_rfl
    | true =>
        obtain ⟨elements, position, rfl⟩ := Node.exists_of_isInstrument hchild
        exact List.prefix_append _ _
  induction children generalizing s with
  | nil => exact List.prefix_rfl
  | cons child rest ih => exact (hread s child).trans (ih _)

/-- Each instrument that is added has been read from its element. -/
theorem exists_element_of_foldl (settings : Settings) (s : ScoreState τ) (children : List Node)
    {i : Instrument τ}
    (hi : i ∈ (children.foldl (ScoreState.read settings) s).header.instruments) :
    i ∈ s.header.instruments ∨ ∃ elements position linking,
      .element .instrument elements position ∈ children ∧
        i = (elements.foldl (InstrumentState.read settings) (.start settings linking)).finish := by
  induction children generalizing s with
  | nil => exact .inl hi
  | cons child rest ih =>
      rcases ih (ScoreState.read settings s child) hi with h | ⟨elements, position, linking, h, rfl⟩
      · cases hchild : child.isInstrument with
        | false => exact .inl ((s.read_other settings hchild).1 ▸ h)
        | true =>
            obtain ⟨elements, position, rfl⟩ := Node.exists_of_isInstrument hchild
            rcases List.mem_append.mp h with h | h
            · exact .inl h
            · exact .inr ⟨elements, position, s.linking, List.mem_cons_self,
                List.mem_singleton.mp h⟩
      · exact .inr ⟨elements, position, linking, List.mem_cons_of_mem _ h, rfl⟩

theorem exists_first_of_foldl (settings : Settings) {s : ScoreState τ}
    (hs : s.header.instruments = []) (children : List Node) :
    ∃ part, ReadsMusic settings .initial (firstMusic children) part ∧
      (children.foldl (ScoreState.read settings) s).header.firstTimeline = part.timeline := by
  induction children generalizing s with
  | nil => exact ⟨.initial, .nil _, by simp [Score.firstTimeline, hs, Part.initial]⟩
  | cons child rest ih =>
      cases hchild : child.isInstrument with
      | true =>
          obtain ⟨elements, position, rfl⟩ := Node.exists_of_isInstrument hchild
          obtain ⟨behind, hbehind⟩ := instruments_prefix settings
            (ScoreState.read settings s (.element .instrument elements position)) rest
          refine ⟨_, InstrumentState.foldl_readsMusic settings (.start settings s.linking)
            elements, ?_⟩
          rw [List.foldl_cons, Score.firstTimeline, ← hbehind, ScoreState.read,
            ScoreState.addInstrument, hs]
          rfl
      | false =>
          rw [firstMusic_cons_other hchild]
          exact ih ((s.read_other settings hchild).1.trans hs)

end ScoreState

/-- The instruments of a score are read from their elements. -/
theorem exists_element_of_analyseScore {settings : Settings} {children : List Node}
    {i : Instrument τ}
    (hi : i ∈ (analyseScore settings children : ScoreAnalysis τ).score.instruments) :
    ∃ elements position linking, .element .instrument elements position ∈ children ∧
      i = (elements.foldl (InstrumentState.read settings) (.start settings linking)).finish :=
  (ScoreState.exists_element_of_foldl settings {} children hi).resolve_left nofun

/-- The first timeline of a score is what a part has read of the music of its first instrument. -/
theorem exists_first_of_analyseScore (settings : Settings) (children : List Node) :
    ∃ part : Part τ, ReadsMusic settings .initial (firstMusic children) part ∧
      (analyseScore settings children : ScoreAnalysis τ).score.firstTimeline = part.timeline :=
  ScoreState.exists_first_of_foldl settings rfl children

end ScorePlayback
