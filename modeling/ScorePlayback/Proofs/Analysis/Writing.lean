import ScorePlayback.Proofs.Analysis.WrittenMeasures
import ScorePlayback.Proofs.Numeral

/-! # Writing measures

Every frame can be written: its bracket with two numbers, its barline by its name. -/

namespace ScorePlayback

/-- The name that a barline is written with. -/
def Barline.name : Barline → String
  | .simple => "simple"
  | .double => "double"
  | .opening => "start"
  | .closing => "end"
  | .startRepeat => "startRepetition"
  | .endRepeat => "endRepetition"
  | .doubleRepeat => "doubleRepetition"

theorem Barline.ofName?_name (b : Barline) : Barline.ofName? b.name = some b := by
  cases b <;> rfl

namespace Frame

/-- Its bracket has an ending and a span that can be read. -/
def IsWritable (f : Frame) : Prop :=
  ∀ bracket ∈ f.bracket, 1 ≤ bracket.1 ∧ bracket.1 ≤ 255 ∧
    1 ≤ bracket.2 ∧ bracket.2 ≤ Numeral.largest32

def opening (f : Frame) (position : Position) : List Node :=
  f.bracket.toList.map fun bracket =>
    .element .volta [.number bracket.1 position, .number bracket.2 position] position

def barline (f : Frame) (position : Position) : Node :=
  .element .barline [.atom .label f.shape.name position] position

/-- The elements of a measure. All of them stand at one position. -/
def elements (music : List Node) (position : Position) (f : Frame) : List Node :=
  f.opening position ++ (music ++ [f.barline position])

theorem opens_opening {f : Frame} (h : f.IsWritable) (position : Position) :
    f.Opens (f.opening position) := by
  unfold Opens
  split
  · next hnone => rw [opening, hnone]; rfl
  · next bracket hsome =>
    obtain ⟨hending, hending', hspan, hspan'⟩ := h bracket hsome
    refine ⟨_, by rw [opening, hsome]; rfl, rfl, ?_⟩
    have hreads : (Node.number bracket.1 position).count? 1 255 = some bracket.1 ∧
        (Node.number bracket.2 position).count? 1 Numeral.largest32 = some bracket.2 :=
      ⟨Node.count?_number position hending hending' (by decide),
        Node.count?_number position hspan hspan' (by decide)⟩
    have hatoms : Node.atoms (.element .volta [.number bracket.1 position,
        .number bracket.2 position] position) =
          [.number bracket.1 position, .number bracket.2 position] := rfl
    simp only [Control.readVolta, hatoms, hreads.1, hreads.2]

theorem readBarline_barline {settings : Settings} (h : settings.repeatTimes = 1) (f : Frame)
    (position : Position) :
    Control.readBarline settings (f.barline position) = .ok ⟨f.shape, 1⟩ := by
  have hpart : Control.readBarlinePart ⟨.simple, settings.repeatTimes⟩
      (.atom .label f.shape.name position) = .ok ⟨f.shape, settings.repeatTimes⟩ := by
    simp only [Control.readBarlinePart, Node.kind, Node.text, Barline.ofName?_name]
  show [Node.atom .label f.shape.name position].foldlM Control.readBarlinePart _ = _
  rw [List.foldlM_cons, hpart, h]
  rfl

end Frame

/-- Measures with any writable frames can be written, if a repeat that does not say so is
repeated once. -/
theorem writes_elements {settings : Settings} (h : settings.repeatTimes = 1) {frames : List Frame}
    (hframes : ∀ f ∈ frames, f.IsWritable) {music : List Node} (hmusic : ∀ n ∈ music, n.IsContent)
    (position : Position) :
    Writes settings frames (frames.flatMap (Frame.elements music position)) := by
  induction frames with
  | nil => exact .nil
  | cons f frames ih =>
      obtain ⟨hf, hframes⟩ := List.forall_mem_cons.mp hframes
      have hmeasure := Writes.measure (f.opens_opening hf position) hmusic rfl
        (f.readBarline_barline h position) (ih hframes)
      simpa [Frame.elements] using hmeasure

end ScorePlayback
