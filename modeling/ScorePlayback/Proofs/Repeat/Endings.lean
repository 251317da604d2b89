import ScorePlayback.Proofs.Analysis.Writing
import ScorePlayback.Proofs.Player.Endings
import ScorePlayback.Proofs.Player.MeasureSequence
import ScorePlayback.Proofs.Repeat.Interleaving
import ScorePlayback.Proofs.Time.Doubles

/-! # A section with endings

An introduction, a body that is played once for every ending, the brackets of the endings and
what follows them. Each ending but the last goes back to the body. The plan has an entry for
each of these, and the player takes the endings in turn. -/

namespace ScorePlayback

/-- The lengths of the parts in measures; `spans` are those of the brackets. -/
structure EndingsLayout where
  intro : Nat
  body : Nat
  spans : List Nat
  tail : Nat
deriving DecidableEq, Repr

/-! ## How it is written -/

def plainFrames (count : Nat) : List Frame := List.replicate count {}

/-- The measures under the bracket of an ending. The bracket starts with the first of them, and
a barline of the given shape closes the last one. -/
def bracketFrames (ending : Nat) (shape : Barline) : Nat → List Frame
  | 0 => []
  | 1 => [⟨some (ending, 1), shape⟩]
  | count + 2 => ⟨some (ending, count + 2), .simple⟩ :: (plainFrames count ++ [⟨none, shape⟩])

/-- The brackets of the endings from one on. All but the last end a repeat. -/
def endingFrames : Nat → List Nat → List Frame
  | _, [] => []
  | ending, [span] => bracketFrames ending .simple span
  | ending, span :: next :: spans =>
    bracketFrames ending .endRepeat span ++ endingFrames (ending + 1) (next :: spans)

namespace EndingsLayout

variable (l : EndingsLayout)

/-- An introduction ends with the start of the repeat. -/
def introFrames : List Frame :=
  match l.intro with
  | 0 => []
  | count + 1 => plainFrames count ++ [⟨none, .startRepeat⟩]

def frames : List Frame :=
  l.introFrames ++ plainFrames l.body ++ endingFrames 1 l.spans ++ plainFrames l.tail

/-- The first measure under a bracket. -/
def opening : Nat := l.intro + l.body + 1

/-- The first measure behind all brackets. -/
def behind : Nat := l.spans.foldl (· + ·) l.opening

def measureCount : Nat := l.behind - 1 + l.tail

/-- The introduction, for each bracket the body and the bracket, and then what follows. -/
def order : List Nat :=
  List.range' 1 l.intro
    ++ ((bracketMeasures l.opening l.spans).flatMap fun bracket =>
        List.range' (l.intro + 1) l.body ++ bracket)
    ++ List.range' l.behind l.tail

end EndingsLayout

/-! ## It can be written -/

theorem isWritable_of_mem_plainFrames {count : Nat} : ∀ f ∈ plainFrames count, f.IsWritable := by
  intro f hf
  rw [List.eq_of_mem_replicate hf]
  simp [Frame.IsWritable]

theorem isWritable_of_mem_bracketFrames {ending span : Nat} {shape : Barline}
    (hending : 1 ≤ ending ∧ ending ≤ 255) (hspan : span ≤ Numeral.largest32) :
    ∀ f ∈ bracketFrames ending shape span, f.IsWritable := by
  match span with
  | 0 => simp [bracketFrames]
  | 1 => simp [bracketFrames, Frame.IsWritable, hending, hspan]
  | count + 2 =>
      refine List.forall_mem_cons.mpr ⟨by simp [Frame.IsWritable, hending, hspan], ?_⟩
      refine List.forall_mem_append.mpr ⟨isWritable_of_mem_plainFrames, ?_⟩
      simp [Frame.IsWritable]

theorem isWritable_of_mem_endingFrames {ending : Nat} {spans : List Nat} (hpos : 1 ≤ ending)
    (hlength : ending + spans.length ≤ 256) (hspans : ∀ span ∈ spans, span ≤ Numeral.largest32) :
    ∀ f ∈ endingFrames ending spans, f.IsWritable := by
  induction spans generalizing ending with
  | nil => simp [endingFrames]
  | cons span spans ih =>
      obtain ⟨hspan, hspans⟩ := List.forall_mem_cons.mp hspans
      rw [List.length_cons] at hlength
      have hbracket (shape : Barline) : ∀ f ∈ bracketFrames ending shape span, f.IsWritable :=
        isWritable_of_mem_bracketFrames ⟨hpos, by omega⟩ hspan
      cases spans with
      | nil => exact hbracket .simple
      | cons next spans =>
          exact List.forall_mem_append.mpr ⟨hbracket .endRepeat, ih (by omega) (by omega) hspans⟩

/-- Endings are counted up to 255, and their brackets in 32 bits. -/
theorem EndingsLayout.isWritable_of_mem_frames {l : EndingsLayout} (hlength : l.spans.length ≤ 255)
    (hspans : ∀ span ∈ l.spans, span ≤ Numeral.largest32) : ∀ f ∈ l.frames, f.IsWritable := by
  have hintro : ∀ f ∈ l.introFrames, f.IsWritable := by
    unfold introFrames
    cases l.intro with
    | zero => simp
    | succ count =>
        refine List.forall_mem_append.mpr ⟨isWritable_of_mem_plainFrames, ?_⟩
        simp [Frame.IsWritable]
  have hendings := isWritable_of_mem_endingFrames (Nat.le_refl 1) (by omega) hspans
  exact List.forall_mem_append.mpr ⟨List.forall_mem_append.mpr ⟨List.forall_mem_append.mpr
    ⟨hintro, isWritable_of_mem_plainFrames⟩, hendings⟩, isWritable_of_mem_plainFrames⟩

/-! ## The marks -/

def plainMarks (first count : Nat) : List RepeatMark :=
  (List.range' first count).map fun measure => .barline .simple measure 1

theorem isPlain_of_mem_plainMarks {first count : Nat} :
    ∀ mark ∈ plainMarks first count, mark.IsPlain := by
  intro mark hmark
  obtain ⟨measure, -, rfl⟩ := List.mem_map.mp hmark
  exact ⟨rfl, rfl⟩

theorem marksFrom_append (measure : Nat) (first second : List Frame) :
    marksFrom measure (first ++ second) =
      marksFrom measure first ++ marksFrom (measure + first.length) second := by
  induction first generalizing measure with
  | nil => rfl
  | cons f first ih =>
      rw [List.cons_append, marksFrom, marksFrom, ih, List.append_assoc, List.length_cons,
        show measure + 1 + first.length = measure + (first.length + 1) by omega]

theorem marksFrom_plainFrames (measure count : Nat) :
    marksFrom measure (plainFrames count) = plainMarks measure count := by
  induction count generalizing measure with
  | zero => rfl
  | succ count ih =>
      rw [plainFrames, List.replicate_succ, marksFrom]
      exact congrArg _ (ih (measure + 1))

@[simp] theorem length_plainFrames (count : Nat) : (plainFrames count).length = count :=
  List.length_replicate

theorem length_bracketFrames (ending : Nat) (shape : Barline) (span : Nat) :
    (bracketFrames ending shape span).length = span := by
  match span with
  | 0 => rfl
  | 1 => rfl
  | count + 2 => simp [bracketFrames]

/-- The bracket, plain barlines and at last the barline that closes it. -/
theorem marksFrom_bracketFrames (first ending : Nat) (shape : Barline) {span : Nat}
    (hspan : 0 < span) :
    marksFrom first (bracketFrames ending shape span) =
      .volta ending first span :: (plainMarks first (span - 1)
        ++ [.barline shape (first + span - 1) 1]) := by
  match span with
  | 1 => rfl
  | count + 2 =>
      rw [bracketFrames, marksFrom, marksFrom_append, marksFrom_plainFrames, length_plainFrames]
      simp [Frame.marks, plainMarks, marksFrom, List.range'_succ]
      omega

theorem length_endingFrames (ending : Nat) (spans : List Nat) (first : Nat) :
    first + (endingFrames ending spans).length = spans.foldl (· + ·) first := by
  induction spans generalizing ending first with
  | nil => rfl
  | cons span spans ih =>
      cases spans with
      | nil => rw [endingFrames, length_bracketFrames]; rfl
      | cons next spans =>
          rw [endingFrames, List.length_append, length_bracketFrames, ← Nat.add_assoc, ih]
          rfl

theorem EndingsLayout.length_introFrames (l : EndingsLayout) : l.introFrames.length = l.intro := by
  unfold introFrames
  cases l.intro with
  | zero => rfl
  | succ count => simp

theorem EndingsLayout.length_frames (l : EndingsLayout) : l.frames.length = l.measureCount := by
  have hendings := length_endingFrames 1 l.spans l.opening
  have hopening : l.opening = l.intro + l.body + 1 := rfl
  have hcount : l.measureCount = l.spans.foldl (· + ·) l.opening - 1 + l.tail := rfl
  simp only [frames, List.length_append, length_introFrames, length_plainFrames]
  omega

/-! ## The plan -/

namespace RepeatPlan

/-- The brackets of the endings from one on, once the marks of their measures have been read. -/
def readBrackets : Nat → Nat → List Nat → List Bracket
  | _, _, [] => []
  | ending, first, [span] => [⟨ending, first, span, none⟩]
  | ending, first, span :: next :: spans =>
    ⟨ending, first, span, some ⟨first + span - 1, 1⟩⟩
      :: readBrackets (ending + 1) (first + span) (next :: spans)

theorem readMarks_plainMarks {p : RepeatPlan} {first count : Nat}
    (h : ∀ measure, measure < first + count → p.reach measure = p) :
    p.IsSteady (plainMarks first count) ∧ (plainMarks first count).foldl read p = p := by
  induction count generalizing first with
  | zero => exact ⟨trivial, rfl⟩
  | succ count ih =>
      rw [plainMarks, List.range'_succ, List.map_cons]
      have hread : p.read (.barline .simple first 1) = p := h first (by omega)
      have hnext : ∀ measure, measure < first + 1 + count → p.reach measure = p :=
        fun measure hm => h measure (by omega)
      obtain ⟨hsteady, hfold⟩ := ih hnext
      refine ⟨⟨fun measure hm => h measure (?_ : measure < _), ?_⟩, ?_⟩
      · have : measure ≤ first := hm
        omega
      · rw [hread]
        exact hsteady
      · rw [List.foldl_cons, hread]
        exact hfold

/-- A bracket is read with its measures; a repeat end under it belongs to it. -/
theorem readMarks_bracket {p : RepeatPlan} (ending : Nat) (shape : Barline) {first span : Nat}
    (hspan : 0 < span) (hlarge : first + span ≤ Numeral.largest32)
    (hbefore : ∀ measure, measure < first → p.reach measure = p)
    (hshape : shape.startsRepeat = false) :
    p.IsSteady (marksFrom first (bracketFrames ending shape span)) ∧
      (marksFrom first (bracketFrames ending shape span)).foldl read p =
        { p with brackets := p.brackets ++ [⟨ending, first, span,
            if shape.endsRepeat then some ⟨first + span - 1, 1⟩ else none⟩] } := by
  rw [marksFrom_bracketFrames first ending shape hspan]
  generalize hopened : p.read (.volta ending first span) = opened
  have hstop : Bracket.stop ⟨ending, first, span, none⟩ = first + span := Nat.min_eq_left hlarge
  have hbrackets : opened.brackets = p.brackets ++ [⟨ending, first, span, none⟩] := by
    rw [← hopened]
    rfl
  have hreach : ∀ measure, measure < first + span → opened.reach measure = opened :=
    fun measure hm => reach_of_lt_stop hbrackets (hstop.symm ▸ hm)
  obtain ⟨hsteady, hfold⟩ := readMarks_plainMarks
    fun measure (hm : measure < first + (span - 1)) => hreach measure (by omega)
  refine ⟨⟨fun measure hm => hbefore measure hm, ?_⟩, ?_⟩
  · rw [hopened, isSteady_append, hfold]
    refine ⟨hsteady, fun measure hm => hreach measure ?_, trivial⟩
    have : measure ≤ first + span - 1 := hm
    omega
  · rw [List.foldl_cons, hopened, List.foldl_append, hfold, List.foldl_cons, List.foldl_nil, read,
      hreach _ (by omega), hshape]
    cases hends : shape.endsRepeat with
    | false => exact hopened ▸ rfl
    | true =>
        have hcovers : Bracket.covers ⟨ending, first, span, none⟩ (first + span - 1) = true := by
          simp only [Bracket.covers, hstop, Bool.and_eq_true, decide_eq_true_eq]
          omega
        have hclaim := claim?_concat (e := ⟨first + span - 1, 1⟩) p.brackets rfl hcovers
        rw [← hopened]
        simp only [Bool.false_eq_true, if_false, if_true, endRepeat, read, hclaim]

theorem readMarks_endings {p : RepeatPlan} (ending : Nat) {first : Nat} {spans : List Nat}
    (hspans : ∀ span ∈ spans, 0 < span)
    (hlarge : spans.foldl (· + ·) first ≤ Numeral.largest32)
    (hbefore : ∀ measure, measure < first → p.reach measure = p) :
    p.IsSteady (marksFrom first (endingFrames ending spans)) ∧
      (marksFrom first (endingFrames ending spans)).foldl read p =
        { p with brackets := p.brackets ++ readBrackets ending first spans } := by
  induction spans generalizing p ending first with
  | nil => exact ⟨trivial, by simp [endingFrames, marksFrom, readBrackets]⟩
  | cons span spans ih =>
      obtain ⟨hspan, hspans⟩ := List.forall_mem_cons.mp hspans
      have hstop : first + span ≤ Numeral.largest32 := Nat.le_trans (le_foldl_add spans _) hlarge
      cases spans with
      | nil => exact readMarks_bracket ending .simple hspan hstop hbefore rfl
      | cons next spans =>
          obtain ⟨hsteady, hfold⟩ := readMarks_bracket ending .endRepeat hspan hstop hbefore rfl
          rw [endingFrames, marksFrom_append, length_bracketFrames, isSteady_append,
            List.foldl_append, hfold]
          obtain ⟨hsteady', hfold'⟩ := ih (p := { p with brackets := p.brackets ++
            [⟨ending, first, span, some ⟨first + span - 1, 1⟩⟩] }) (ending + 1)
            hspans hlarge fun measure hm =>
              reach_of_lt_stop rfl (Nat.lt_min.mpr ⟨hm, Nat.lt_of_lt_of_le hm hstop⟩)
          refine ⟨⟨hsteady, hsteady'⟩, hfold'.trans ?_⟩
          rw [readBrackets]
          simp

theorem readMarks_intro (l : EndingsLayout) :
    IsSteady {} (marksFrom 1 l.introFrames) ∧
      (marksFrom 1 l.introFrames).foldl read {} = { sectionStart := l.intro + 1 } := by
  unfold EndingsLayout.introFrames
  cases l.intro with
  | zero => exact ⟨trivial, rfl⟩
  | succ count =>
      have hreach (measure : Nat) : reach {} measure = {} := reach_of_brackets_nil rfl measure
      obtain ⟨hsteady, hfold⟩ := readMarks_plainMarks
        fun measure (_ : measure < 1 + count) => hreach measure
      rw [marksFrom_append, marksFrom_plainFrames, length_plainFrames, isSteady_append,
        List.foldl_append, hfold]
      refine ⟨⟨hsteady, fun measure _ => hreach measure, trivial⟩, ?_⟩
      rw [Nat.add_comm 1 count]
      rfl

/-- Up to the last bracket all marks are read into the brackets of one section. -/
theorem readMarks_front (l : EndingsLayout) (hspans : ∀ span ∈ l.spans, 0 < span)
    (hlarge : l.behind ≤ Numeral.largest32) :
    IsSteady {} (marksFrom 1 (l.introFrames ++ plainFrames l.body ++ endingFrames 1 l.spans)) ∧
      (marksFrom 1 (l.introFrames ++ plainFrames l.body ++ endingFrames 1 l.spans)).foldl read {} =
        { sectionStart := l.intro + 1, brackets := readBrackets 1 l.opening l.spans } := by
  have hlength : 1 + l.introFrames.length = l.intro + 1 := by
    rw [l.length_introFrames, Nat.add_comm]
  have hreach (measure : Nat) : reach { sectionStart := l.intro + 1 } measure =
      { sectionStart := l.intro + 1 } := reach_of_brackets_nil rfl measure
  obtain ⟨hintro, hintro'⟩ := readMarks_intro l
  obtain ⟨hbody, hbody'⟩ := readMarks_plainMarks
    fun measure (_ : measure < l.intro + 1 + l.body) => hreach measure
  obtain ⟨hendings, hendings'⟩ := readMarks_endings 1 hspans hlarge fun measure _ => hreach measure
  rw [List.append_assoc, marksFrom_append, marksFrom_append, marksFrom_plainFrames, hlength,
    length_plainFrames, show l.intro + 1 + l.body = l.opening by rw [EndingsLayout.opening]; omega,
    isSteady_append, isSteady_append, List.foldl_append, List.foldl_append, hintro', hbody',
    hendings']
  exact ⟨⟨hintro, hbody, hendings⟩, rfl⟩

/-! ## The repeats -/

theorem map_ending_readBrackets (ending first : Nat) (spans : List Nat) :
    (readBrackets ending first spans).map Bracket.ending = List.range' ending spans.length := by
  induction spans generalizing ending first with
  | nil => rfl
  | cons span spans ih =>
      cases spans with
      | nil => rfl
      | cons next spans =>
          rw [readBrackets, List.map_cons, ih]
          rfl

theorem lastEnding_readBrackets (first : Nat) {spans : List Nat} (h : spans ≠ []) :
    Bracket.lastEnding (readBrackets 1 first spans) = spans.length := by
  have hpos := List.length_pos_iff.mpr h
  rw [Bracket.lastEnding, map_ending_readBrackets]
  refine Nat.le_antisymm (foldl_max_le_iff.mpr ⟨Nat.zero_le _, fun ending he => ?_⟩) ?_
  · have := List.mem_range'_1.mp he
    omega
  · exact (foldl_max_le_iff.mp (Nat.le_refl _)).2 _ (List.mem_range'_1.mpr ⟨hpos, by omega⟩)

/-- With two brackets or more the first one has a repeat end, so the section has its repeats. -/
theorem repeats_closeSection_readBrackets {start first : Nat} {spans : List Nat}
    (h : 2 ≤ spans.length) (nextStart : Nat) :
    (closeSection { sectionStart := start, brackets := readBrackets 1 first spans }
        nextStart).repeats =
      (readBrackets 1 first spans).filterMap (Bracket.repeat? start spans.length) := by
  match spans with
  | span :: next :: rest =>
      have hlast := lastEnding_readBrackets first (List.cons_ne_nil span (next :: rest))
      have hclaimed : ((readBrackets 1 first (span :: next :: rest)).all fun b =>
          b.repeatEnd.isNone) = false := by
        rw [readBrackets, List.all_cons]
        rfl
      rw [closeSection, if_neg (by simp [hclaimed]), hlast]
      rfl

theorem start_of_mem_readBrackets {ending first : Nat} {spans : List Nat} {b : Bracket}
    (h : b ∈ readBrackets ending first spans) : first ≤ b.start := by
  induction spans generalizing ending first with
  | nil => simp [readBrackets] at h
  | cons span spans ih =>
      cases spans with
      | nil =>
          rw [List.mem_singleton.mp h]
      | cons next spans =>
          rcases List.mem_cons.mp h with rfl | h
          · exact Nat.le_refl _
          · exact Nat.le_trans (Nat.le_add_right first span) (ih h)

theorem isFresh_entry (ending : Nat) {start first span times count : Nat} (hspan : 0 < span)
    (hstart : start ≤ first) (hlarge : first + span ≤ Numeral.largest32)
    (hcount : first + span ≤ count + 1) :
    (SectionRepeat.entry (List.range (count + 2))
      { back := ⟨first + span - 1, 1, start⟩
        skip := some ⟨first, times, Bracket.stop ⟨ending, first, span, none⟩⟩ }).IsFresh
      start first (first + span) times := by
  have hstop : Bracket.stop ⟨ending, first, span, none⟩ = first + span := Nat.min_eq_left hlarge
  have hback : first + span - 1 + 1 = first + span := Nat.sub_add_cancel (by omega)
  have hfirst : first ≤ count + 1 := by omega
  refine ⟨_, _, rfl, rfl, ?_, ?_, ?_, ?_, rfl⟩
  · exact (congrArg _ hback).trans (firstEvent_range_of_le hcount)
  · exact firstEvent_range_of_le (Nat.le_trans hstart hfirst)
  · exact firstEvent_range_of_le hfirst
  · exact (congrArg _ hstop).trans (firstEvent_range_of_le hcount)

/-- The entries over measures are fresh endings. -/
theorem freshEndings_readBrackets (ending : Nat) {start first count : Nat} {spans : List Nat}
    (hne : spans ≠ []) (hspans : ∀ span ∈ spans, 0 < span) (hstart : start ≤ first)
    (hlarge : spans.foldl (· + ·) first ≤ Numeral.largest32)
    (hcount : spans.foldl (· + ·) first ≤ count + 1) :
    FreshEndings start first spans
      (((readBrackets ending first spans).filterMap
        (Bracket.repeat? start (ending + spans.length - 1))).map
          (SectionRepeat.entry (List.range (count + 2)))) := by
  induction spans generalizing ending first with
  | nil => exact absurd rfl hne
  | cons span spans ih =>
      obtain ⟨hspan, hspans⟩ := List.forall_mem_cons.mp hspans
      cases spans with
      | nil => exact .last first span
      | cons next spans =>
          have hstop : first + span ≤ (next :: spans).foldl (· + ·) (first + span) :=
            le_foldl_add _ _
          have hlast : ending + (span :: next :: spans).length - 1 =
              ending + 1 + (next :: spans).length - 1 := by
            simp only [List.length_cons]
            omega
          have hrest := ih (ending + 1) (List.cons_ne_nil _ _) hspans
            (Nat.le_trans hstart (Nat.le_add_right first span)) hlarge hcount
          have htimes : max 1 (ending + 1 + (next :: spans).length - 1 - ending) =
              (next :: spans).length := by
            simp only [List.length_cons]
            omega
          rw [hlast]
          generalize ending + 1 + (next :: spans).length - 1 = last at hrest htimes ⊢
          refine .cons ?_ hspan hrest
          rw [← htimes]
          exact isFresh_entry ending hspan hstart (Nat.le_trans hstop hlarge)
            (Nat.le_trans hstop hcount)

end RepeatPlan

/-! ## Scores -/

namespace EndingsLayout

variable {l : EndingsLayout}

theorem opening_le_behind (l : EndingsLayout) : l.opening ≤ l.behind := le_foldl_add _ _

theorem opening_pos (l : EndingsLayout) : l.intro < l.opening := by
  rw [opening]
  omega

theorem behind_le (l : EndingsLayout) : l.behind ≤ l.measureCount + 1 := by
  rw [measureCount]
  omega

/-- What is played over the measures, up to the end behind the last one. -/
theorem playMeasures_eq {p : RepeatPlan} (hendings : 2 ≤ l.spans.length)
    (hspans : ∀ span ∈ l.spans, 0 < span) (hlarge : l.behind ≤ Numeral.largest32)
    (hp : p.repeats = (RepeatPlan.readBrackets 1 l.opening l.spans).filterMap
      (Bracket.repeat? (l.intro + 1) l.spans.length)) :
    p.playMeasures l.measureCount = l.order ++ [l.measureCount + 1] := by
  have hopening := opening_pos l
  have hbehind := opening_le_behind l
  have hcount := behind_le l
  have hne : l.spans ≠ [] := List.ne_nil_of_length_pos (by omega)
  have hfresh := RepeatPlan.freshEndings_readBrackets 1 hne hspans
    (show l.intro + 1 ≤ l.opening from hopening) hlarge hcount
  rw [Nat.add_sub_cancel_left, ← hp] at hfresh
  have hplay := playFrom_endings p.notices (.nil l.opening) hfresh hopening
    (show l.behind < l.measureCount + 2 from Nat.lt_succ_of_le hcount)
  have hintro : ∀ measure, 1 ≤ measure → measure < 1 + l.intro →
      (p.jumpTable (List.range (l.measureCount + 2))).follow? measure = none := by
    intro measure _ hlt
    exact JumpTable.follow?_eq_none.mpr (hfresh.follow?_of_lt (by omega))
  have hbody : l.opening - (l.intro + 1) = l.body := by
    rw [opening]
    omega
  have htail : List.range' l.behind (l.measureCount + 2 - l.behind) =
      List.range' l.behind l.tail ++ [l.measureCount + 1] := by
    rw [measureCount, show l.behind - 1 + l.tail + 2 - l.behind = l.tail + 1 by omega,
      List.range'_1_concat, show l.behind + l.tail = l.behind - 1 + l.tail + 1 by omega]
  rw [hbody, show l.spans.foldl (· + ·) l.opening = l.behind from rfl, htail] at hplay
  rw [RepeatPlan.playMeasures, playFrom_of_quiet l.intro (by omega) hintro, Nat.add_comm 1 l.intro]
  refine (congrArg _ hplay).trans ?_
  simp only [order, List.append_assoc]

theorem le_of_mem_order (l : EndingsLayout) : ∀ measure ∈ l.order, measure ≤ l.measureCount := by
  have hopening : l.opening = l.intro + l.body + 1 := rfl
  have hbehind := opening_le_behind l
  have hcount : l.measureCount = l.behind - 1 + l.tail := rfl
  intro measure hm
  simp only [order, List.mem_append, List.mem_flatMap, List.mem_range'_1] at hm
  obtain (hm | ⟨bracket, hbracket, hm | hm⟩) | hm := hm
  · omega
  · omega
  · have : measure < l.behind := lt_of_mem_bracketMeasures bracket hbracket measure hm
    omega
  · omega

end EndingsLayout

variable {τ : Type} [TimeValue τ]

/-! ### Scores that are written so -/

/-- All jumps back start behind the intro, and all skips go on in a measure. -/
theorem EndingsLayout.isPositive {l : EndingsLayout} {p : RepeatPlan}
    (hlarge : l.behind ≤ Numeral.largest32)
    (hp : p.repeats = (RepeatPlan.readBrackets 1 l.opening l.spans).filterMap
      (Bracket.repeat? (l.intro + 1) l.spans.length)) : p.IsPositive := by
  intro r hr
  rw [hp] at hr
  obtain ⟨b, hb, hr⟩ := List.mem_filterMap.mp hr
  obtain ⟨e, -, rfl⟩ := Option.map_eq_some_iff.mp hr
  have hstart := RepeatPlan.start_of_mem_readBrackets hb
  have hopening := l.opening_pos
  refine ⟨Nat.succ_pos _, ?_⟩
  rintro skip ⟨⟩
  have hstop : 1 ≤ min (b.start + b.span) Numeral.largest32 := by
    have := l.opening_le_behind
    omega
  exact ⟨by dsimp only; omega, hstop⟩

namespace Part.HasWritten

variable {l : EndingsLayout} {part : Part τ} {score : Score τ}

theorem measureCount_eq (h : Part.initial.HasWritten l.frames part)
    (ht : score.firstTimeline = part.timeline)
    (hothers : ∀ i ∈ score.instruments.tail, ∀ object ∈ i.timeline,
      object.measure ≤ l.measureCount) :
    (SoundTable.ofScore score).measureCount = l.measureCount := by
  have hlt := h.measure_lt
  have hlast := h.exists_last
  rw [l.length_frames] at hlt hlast
  refine lastMeasure_eq (fun object hobject => ?_) (fun hpos => ?_) hothers
  · have : object.measure < 1 + l.measureCount := hlt object (ht ▸ hobject)
    omega
  · have hne : l.frames ≠ [] := List.ne_nil_of_length_pos (l.length_frames ▸ hpos)
    obtain ⟨object, hobject, hmeasure⟩ := hlast hne
    have : object.measure + 1 = 1 + l.measureCount := hmeasure
    exact ⟨object, ht ▸ hobject, by omega⟩

/-- Each ending but the last one closes a repeat of the section. -/
theorem repeats_eq [RoundedTime τ] (h : Part.initial.HasWritten l.frames part)
    (ht : score.firstTimeline = part.timeline) (hendings : 2 ≤ l.spans.length)
    (hspans : ∀ span ∈ l.spans, 0 < span) (hlarge : l.behind ≤ Numeral.largest32) :
    (RepeatPlan.ofMarks (repeatMarks score)).repeats =
      (RepeatPlan.readBrackets 1 l.opening l.spans).filterMap
        (Bracket.repeat? (l.intro + 1) l.spans.length) := by
  obtain ⟨hlaid, -, -, final, hfinal, hmarks⟩ := h
  obtain ⟨hsteady, hfront⟩ := RepeatPlan.readMarks_front l hspans hlarge
  -- what has lost its time is read first, when there is no bracket yet
  obtain ⟨early, late, hsplit, hearly, hlate⟩ := hlaid.exists_repeatMarks_eq ht
  have hinter := interleaved_of_pairwise hlate
  have hnone : early.filter (fun mark => !mark.isMusic) = [] :=
    List.filter_eq_nil_iff.mpr fun mark hmark => by simp [hearly mark hmark]
  have hstructural : late.filter (fun mark => !mark.isMusic) = part.structuralMarks := by
    rw [← hlaid.filter_repeatMarks ht, hsplit, List.filter_append, hnone, List.nil_append]
  rw [hstructural] at hinter
  have hall : part.structuralMarks ++ final =
      marksFrom 1 (l.introFrames ++ plainFrames l.body ++ endingFrames 1 l.spans) ++
        marksFrom (1 + (l.introFrames ++ plainFrames l.body ++ endingFrames 1 l.spans).length)
          (plainFrames l.tail) := by
    rw [← marksFrom_append]
    exact hmarks
  have hplain : ∀ mark ∈ final, mark.IsPlain := by
    rcases hfinal with rfl | ⟨measure, rfl⟩
    · simp
    · exact List.forall_mem_singleton.mpr ⟨rfl, rfl⟩
  rw [RepeatPlan.ofMarks, hsplit, List.foldl_append, RepeatPlan.foldl_read_of_isMusic rfl hearly,
    RepeatPlan.closeSection_foldl_of_interleaved hinter hall hsteady
    (by rw [marksFrom_plainFrames]; exact isPlain_of_mem_plainMarks) hplain, hfront]
  exact RepeatPlan.repeats_closeSection_readBrackets hendings _

end Part.HasWritten

/-- A section that is written with endings is played with its endings in turn. The measures of the
layout have to be all measures of the score: no other instrument goes on behind them. Times may be
rounded. Measures are counted in 32 bits, so there cannot be too many of them. -/
theorem measureSequence_eq_order [RoundedTime τ] {settings : Settings} {children : List Node}
    {l : EndingsLayout} (hwritten : Writes settings l.frames (firstMusic children))
    (hendings : 2 ≤ l.spans.length) (hspans : ∀ span ∈ l.spans, 0 < span)
    (hlarge : l.measureCount < Numeral.largest32) {score : Score τ}
    (hscore : (analyseScore settings children).score = score)
    (hothers : ∀ i ∈ score.instruments.tail, ∀ object ∈ i.timeline,
      object.measure ≤ l.measureCount)
    (hsep : (SoundTable.ofScore score).SeparatesMeasures) :
    (SoundTable.ofScore score).measureSequence = l.order := by
  obtain ⟨part, hreads, ht⟩ := @exists_first_of_analyseScore τ _ settings children
  rw [hscore] at ht
  have hparts : Part.initial.HasWritten l.frames part :=
    hreads.of_writes hwritten .initial ⟨rfl, by simp [Part.initial]⟩
  have hlarge' : l.behind ≤ Numeral.largest32 := Nat.le_trans l.behind_le hlarge
  have hrepeats := hparts.repeats_eq ht hendings hspans hlarge'
  rw [SoundTable.measureSequence_eq rfl (l.isPositive hlarge' hrepeats) hsep,
    hparts.measureCount_eq ht hothers,
    EndingsLayout.playMeasures_eq hendings hspans hlarge' hrepeats, List.filter_append,
    List.filter_eq_self.mpr (by simpa using l.le_of_mem_order), List.filter_singleton]
  simp

/-- A score whose measures have these frames and a whole note each. -/
def EndingsLayout.scoreElements (l : EndingsLayout) : List Node :=
  let here : Position := ⟨1, 1⟩
  let note : Node := .element .note [.atom .label "c4" here, .atom .label "w" here] here
  [.element .instrument [.element .music (l.frames.flatMap (Frame.elements [note] here)) here] here]

/-- The bracket of the second ending covers two measures. Times are doubles, as in playback. -/
theorem measureSequence_three_endings :
    (SoundTable.ofScore (analyseScore {} (EndingsLayout.scoreElements ⟨1, 1, [1, 2, 1], 1⟩) :
      ScoreAnalysis Float).score).measureSequence = [1, 2, 3, 2, 4, 5, 2, 6, 7] := by
  have hframes := EndingsLayout.isWritable_of_mem_frames (l := ⟨1, 1, [1, 2, 1], 1⟩) (by decide)
    (by decide)
  have hnote : ∀ n ∈ [Node.element .note [.atom .label "c4" ⟨1, 1⟩, .atom .label "w" ⟨1, 1⟩]
      ⟨1, 1⟩], n.IsContent := by simp [Node.IsContent, Node.kind]
  have hwritten := writes_elements (show ({} : Settings).repeatTimes = 1 from rfl) hframes hnote
    ⟨1, 1⟩
  have hmusic : firstMusic (EndingsLayout.scoreElements ⟨1, 1, [1, 2, 1], 1⟩) = _ :=
    List.append_nil _
  rw [measureSequence_eq_order (l := ⟨1, 1, [1, 2, 1], 1⟩) (hmusic ▸ hwritten) (by decide)
    (by decide) (by decide) rfl (by decide +kernel) (by decide +kernel)]
  rfl

end ScorePlayback
