import ScorePlayback.Proofs.Analysis.DocumentScores
import ScorePlayback.Proofs.Analysis.MeasuredTime
import ScorePlayback.Proofs.Analysis.MusicReading
import ScorePlayback.Proofs.Notation.Positions

/-! # Where a timeline turns back

Objects go onto a timeline where the cursor stands. Only a move back lets the cursor stand before
an object that is there already, and it does not leave the measure. It does not change the voice
either: if the notes behind it do not say that they belong to another one, the time of a single
voice turns back. -/

namespace ScorePlayback

/-- A move back that is carried out. -/
def Node.TurnsBack (n : Node) : Prop :=
  n.kind = .element .goBack ∧
    ∃ move : Control.Move Rat, Control.readMove "start" .goBackShape n = .ok move

/-- Two objects of a timeline are in order, or they are in one measure and one of the moves back
stands between them in the text. -/
def StaffObject.InOrder (turns : Node → Prop) (a b : StaffObject Rat) : Prop :=
  a.time ≤ b.time ∨ a.measure = b.measure ∧ ∃ turn, turns turn ∧
    turn.TurnsBack ∧ a.position.Before turn.position ∧ turn.position.Before b.position

/-! ## What an element places -/

/-- Some objects have been placed where the cursor stands. Their elements are at the given
positions. The cursor stays. -/
structure Part.PlacesAt {τ : Type} (positions : List Position) (p p' : Part τ) : Prop where
  cursor : p'.cursor = p.cursor
  timeline : ∃ objects, p'.timeline = p.timeline ++ objects ∧ ∀ object ∈ objects,
    object.time = p.cursor.time ∧ object.measure = p.cursor.measure ∧ object.position ∈ positions

namespace Part.PlacesAt

variable {τ : Type} {positions more : List Position} {p q r : Part τ}

theorem nothing (ht : q.timeline = p.timeline) (hc : q.cursor = p.cursor) :
    p.PlacesAt positions q :=
  ⟨hc, [], by rw [ht, List.append_nil], nofun⟩

theorem single {object : StaffObject τ} (ht : q.timeline = p.timeline ++ [object])
    (hc : q.cursor = p.cursor) (htime : object.time = p.cursor.time)
    (hmeasure : object.measure = p.cursor.measure) (hposition : object.position ∈ positions) :
    p.PlacesAt positions q :=
  ⟨hc, [object], ht, List.forall_mem_singleton.mpr ⟨htime, hmeasure, hposition⟩⟩

theorem trans (h : p.PlacesAt positions q) (h' : q.PlacesAt positions r) :
    p.PlacesAt positions r := by
  obtain ⟨hc, objects, ht, hobjects⟩ := h
  obtain ⟨hc', objects', ht', hobjects'⟩ := h'
  rw [hc] at hc' hobjects'
  refine ⟨hc', objects ++ objects', by rw [ht', ht, List.append_assoc], ?_⟩
  exact List.forall_mem_append.mpr ⟨hobjects, hobjects'⟩

theorem mono (h : p.PlacesAt positions q) (hsub : positions ⊆ more) : p.PlacesAt more q := by
  obtain ⟨hc, objects, ht, hobjects⟩ := h
  refine ⟨hc, objects, ht, fun object hobject => ?_⟩
  obtain ⟨htime, hmeasure, hposition⟩ := hobjects object hobject
  exact ⟨htime, hmeasure, hsub hposition⟩

end Part.PlacesAt

namespace Passage

variable {τ : Type} [TimeValue τ] (settings : Settings) (s : Passage τ)

theorem addNote_placesAt (isNote : Bool) (items : List Node) (position : Position)
    (inChord : Bool) :
    s.part.PlacesAt [position] (s.addNote settings isNote items position inChord).1.part := by
  unfold addNote
  split
  · exact .single (s.timeline_placeNote _ _ _ _) (s.cursor_placeNote _ _ _ _) rfl rfl
      (List.mem_singleton_self _)
  · exact .nothing rfl rfl

theorem addChordNote_placesAt (first : Option τ) (child : Node) :
    s.part.PlacesAt child.positions (addChordNote settings (s, first) child).1.part := by
  unfold addChordNote
  dsimp only
  split
  · next items position =>
    have hposition : position ∈ (Node.element .note items position).positions :=
      Node.position_mem_positions _
    exact (s.addNote_placesAt settings true items position first.isSome).mono
      (by simpa using hposition)
  · exact .nothing rfl rfl

theorem foldl_addChordNote_placesAt (children : List Node) :
    s.part.PlacesAt (Node.positionsOf children)
      (children.foldl (addChordNote settings) (s, none)).1.part :=
  List.foldlRecOn (motive := fun state : Passage τ × Option τ =>
    s.part.PlacesAt (Node.positionsOf children) state.1.part) children _ (.nothing rfl rfl)
    fun state hs child hchild => hs.trans <|
      (state.1.addChordNote_placesAt settings state.2 child).mono
        (Node.positions_sublist_of_mem hchild).subset

end Passage

/-! ## What an element does -/

/-- An element places objects and the cursor moves on, or it closes the measure, or the cursor
turns back. -/
inductive TurningStep (child : Node) (p p' : Part Rat) : Prop where
  | onward (q : Part Rat) (hplaces : p.PlacesAt child.positions q)
      (ht : p'.timeline = q.timeline) (hc : q.cursor.GoesOn p'.cursor)
      (htime : q.cursor.time ≤ p'.cursor.time)
  | close (shape : Barline) (times : Nat) (object : StaffObject Rat)
      (hclose : ClosesMeasure p p' shape times object)
      (hposition : object.position ∈ child.positions)
  | back (hback : child.TurnsBack) (ht : p'.timeline = p.timeline) (hc : p.cursor.GoesOn p'.cursor)

namespace TurningStep

variable {child : Node} {p p' q : Part Rat}

theorem stay (h : p.cursor.IsWithin) (hplaces : p.PlacesAt child.positions p') :
    TurningStep child p p' :=
  .onward p' hplaces rfl (hplaces.cursor ▸ h.goesOn (.stay rfl)) le_rfl

theorem forward (h : p.cursor.IsWithin) (hplaces : p.PlacesAt child.positions q) {time : Rat}
    (htime : p.cursor.time ≤ time) (ht : p'.timeline = q.timeline)
    (hc : p'.cursor = q.cursor.forwardTo time) : TurningStep child p p' := by
  have hq : q.cursor.IsWithin := hplaces.cursor ▸ h
  have hle : q.cursor.time ≤ time := hplaces.cursor ▸ htime
  exact .onward q hplaces ht (hc ▸ hq.goesOn (.forward time (.inl hle) rfl)) (hc ▸ hle)

theorem silent (h : p.cursor.IsWithin) (ht : p'.timeline = p.timeline)
    (hc : p'.cursor = p.cursor) : TurningStep child p p' :=
  .stay h (.nothing ht hc)

end TurningStep

namespace Passage

variable {settings : Settings} {s : Passage Rat}

theorem zero_le_of_addNote (settings : Settings) (s : Passage Rat) (isNote : Bool)
    (items : List Node) (position : Position) (inChord : Bool) :
    ∀ d ∈ (s.addNote settings isNote items position inChord).2, 0 ≤ d := by
  have hall : AllowsNotes fun _ : StaffObject Rat => True := fun _ _ _ => trivial
  have hlength := (addNote_steps hall settings s isNote items position inChord).2
  exact fun d hd => (hlength d hd).nonneg

theorem addSingle_turns (h : s.part.cursor.IsWithin) (isNote : Bool) {items : List Node}
    {position : Position} {child : Node} (hposition : position ∈ child.positions) :
    TurningStep child s.part (s.addSingle settings isNote items position).part := by
  have hplaces : s.part.PlacesAt child.positions
      (s.addNote settings isNote items position false).1.part :=
    (s.addNote_placesAt settings isNote items position false).mono (by simpa using hposition)
  have hlength := s.zero_le_of_addNote settings isNote items position false
  unfold addSingle
  generalize s.addNote settings isNote items position false = result at hplaces hlength
  obtain ⟨s', duration⟩ := result
  cases duration with
  | none => exact .stay h hplaces
  | some d =>
      have hle : s.part.cursor.time ≤ s'.part.cursor.time + d :=
        hplaces.cursor ▸ le_add_of_nonneg_right (hlength d rfl)
      exact .forward h hplaces hle rfl rfl

theorem addChord_turns (h : s.part.cursor.IsWithin) {children : List Node} (position : Position)
    {child : Node} (hsub : Node.positionsOf children ⊆ child.positions) :
    TurningStep child s.part (s.addChord settings children position).part := by
  have hplaces := (s.foldl_addChordNote_placesAt settings children).mono hsub
  have hlength : ∀ d ∈ (children.foldl (addChordNote settings) (s, none)).2, 0 ≤ d := by
    refine List.foldlRecOn (motive := fun state : Passage Rat × Option Rat =>
      ∀ d ∈ state.2, 0 ≤ d) children _ nofun fun state hstate child _ => ?_
    unfold addChordNote
    dsimp only
    split
    · next items position _ =>
      have hnote := state.1.zero_le_of_addNote settings true items position state.2.isSome
      cases hfirst : state.2 with
      | none => simpa [hfirst] using hnote
      | some d => simpa [hfirst] using hstate
    · exact hstate
  unfold addChord
  generalize children.foldl (addChordNote settings) (s, none) = result at hplaces hlength
  obtain ⟨s', first⟩ := result
  cases first with
  | none => exact .stay h hplaces
  | some d =>
      have hle : s.part.cursor.time ≤ s'.part.cursor.time + d :=
        hplaces.cursor ▸ le_add_of_nonneg_right (hlength d rfl)
      exact .forward h hplaces hle rfl rfl

theorem accept_turns {α : Type} {child : Node} (h : s.part.cursor.IsWithin) (position : Position)
    (reading : Except GrammarFault α) (use : α → Passage Rat)
    (huse : ∀ value, reading = .ok value → TurningStep child s.part (use value).part) :
    TurningStep child s.part (s.accept position reading use).part := by
  cases reading with
  | ok value => exact huse value rfl
  | error fault => exact .silent h rfl rfl

theorem addSymbol_turns (h : s.part.cursor.IsWithin) (symbol : StaffSymbol) {position : Position}
    {child : Node} (hposition : position ∈ child.positions) :
    TurningStep child s.part (s.addSymbol symbol position).part :=
  .stay h (.single rfl rfl rfl rfl hposition)

/-- Nothing but a move back lets the cursor stand before what has been placed in its measure. -/
theorem read_turns (h : s.part.cursor.IsWithin) (child : Node) :
    TurningStep child s.part (read settings s child).part := by
  have hposition := child.position_mem_positions
  unfold read
  split
  · exact addSingle_turns h true hposition
  · exact addSingle_turns h false hposition
  · exact addChord_turns h _ (List.subset_cons_self _ _)
  · exact accept_turns h _ _ _ fun clef _ => addSymbol_turns h _ hposition
  · refine accept_turns h _ _ _ fun key _ => ?_
    exact .stay h (.single rfl rfl rfl rfl hposition)
  · exact accept_turns h _ _ _ fun meter _ => addSymbol_turns h _ hposition
  · split
    · exact .close _ _ _ (s.addBarline_closes _ _) hposition
    · exact .silent h rfl rfl
  · exact accept_turns h _ _ _ fun bracket _ => addSymbol_turns h _ hposition
  · refine accept_turns h _ _ _ fun move hmove => .back ⟨rfl, move, hmove⟩ ?_ ?_
    · cases move <;> rfl
    · cases move with
      | toMark => exact h.backTo (h.start_le.trans h.le_reached)
      | «by» amount =>
          have hamount := (isLength_of_readMove hmove).nonneg
          exact h.backTo ((sub_le_self _ hamount).trans h.le_reached)
  · refine accept_turns h _ _ _ fun move hmove => ?_
    cases move with
    | toMark => exact .forward h (.nothing rfl rfl) h.le_reached rfl rfl
    | «by» amount =>
        have hamount := (isLength_of_readMove hmove).nonneg
        exact .forward h (.nothing rfl rfl) (le_add_of_nonneg_right hamount) rfl rfl
  · exact .silent h rfl rfl

end Passage

/-! ## What the elements so far have done -/

/-- Where an object is that the cursor stands behind: in an earlier measure, or in this one, and
not later than the cursor unless that has turned back. -/
inductive StaffObject.IsPassed (turns : Node → Prop) (c : Cursor Rat) (object : StaffObject Rat) :
    Prop where
  | earlier (htime : object.time ≤ c.measureStart)
  | before (hmeasure : object.measure = c.measure) (htime : object.time ≤ c.time)
  | turned (hmeasure : object.measure = c.measure) (turn : Node) (hturn : turns turn)
      (hback : turn.TurnsBack) (hposition : object.position.Before turn.position)

namespace StaffObject

variable {turns turns' : Node → Prop} {c c' : Cursor Rat} {object a b : StaffObject Rat}

theorem InOrder.mono (h : a.InOrder turns b) (hturns : ∀ turn, turns turn → turns' turn) :
    a.InOrder turns' b := by
  rcases h with h | ⟨hmeasure, turn, hturn, h⟩
  · exact .inl h
  · exact .inr ⟨hmeasure, turn, hturns turn hturn, h⟩

theorem IsPassed.mono (h : object.IsPassed turns c) (hturns : ∀ turn, turns turn → turns' turn) :
    object.IsPassed turns' c := by
  cases h with
  | earlier htime => exact .earlier htime
  | before hmeasure htime => exact .before hmeasure htime
  | turned hmeasure turn hturn hback hposition =>
      exact .turned hmeasure turn (hturns turn hturn) hback hposition

theorem IsPassed.goesOn (h : object.IsPassed turns c) (hc : c.GoesOn c')
    (htime : c.time ≤ c'.time) : object.IsPassed turns c' := by
  cases h with
  | earlier h => exact .earlier (hc.start ▸ h)
  | before hmeasure h => exact .before (hc.measure ▸ hmeasure) (h.trans htime)
  | turned hmeasure turn hturn hback hposition =>
      exact .turned (hc.measure ▸ hmeasure) turn hturn hback hposition

/-- When the cursor turns back, all objects of the measure are in front of the move. -/
theorem IsPassed.turn (h : object.IsPassed turns c) (hc : c.GoesOn c') {turn : Node}
    (hturn : turns turn) (hback : turn.TurnsBack)
    (hposition : object.position.Before turn.position) : object.IsPassed turns c' := by
  cases h with
  | earlier htime => exact .earlier (hc.start ▸ htime)
  | before hmeasure _ => exact .turned (hc.measure ▸ hmeasure) turn hturn hback hposition
  | turned hmeasure _ _ _ _ => exact .turned (hc.measure ▸ hmeasure) turn hturn hback hposition

/-- An object is placed where the cursor stands, behind the moves back so far. -/
theorem IsPassed.inOrder (h : a.IsPassed turns c) (hc : c.IsWithin) (htime : b.time = c.time)
    (hmeasure : b.measure = c.measure)
    (hturns : ∀ turn, turns turn → turn.position.Before b.position) : a.InOrder turns b := by
  cases h with
  | earlier h => exact .inl (htime ▸ h.trans hc.start_le)
  | before _ h => exact .inl (htime ▸ h)
  | turned ha turn hturn hback hposition =>
      exact .inr ⟨ha.trans hmeasure.symm, turn, hturn, hback, hposition, hturns turn hturn⟩

end StaffObject

/-- What holds of a part when some elements have been read. -/
structure Part.TurnsAt (read : List Node) (p : Part Rat) : Prop where
  cursor : p.cursor.IsWithin
  positions : ∀ object ∈ p.timeline, object.position ∈ Node.positionsOf read
  reached : ∀ object ∈ p.timeline, object.time ≤ p.cursor.reached
  passed : ∀ object ∈ p.timeline, object.IsPassed (· ∈ read) p.cursor
  inOrder : p.timeline.Pairwise (StaffObject.InOrder (· ∈ read))

namespace Part.TurnsAt

variable {read : List Node} {child : Node} {p p' q : Part Rat}

theorem initial : (Part.initial : Part Rat).TurnsAt [] :=
  ⟨.initial, nofun, nofun, nofun, .nil⟩

theorem mono (h : p.TurnsAt read) (more : List Node) : p.TurnsAt (read ++ more) where
  cursor := h.cursor
  positions object hobject :=
    (Node.positionsOf_append read more).symm ▸ List.mem_append_left _ (h.positions object hobject)
  reached := h.reached
  passed object hobject := (h.passed object hobject).mono fun _ => List.mem_append_left _
  inOrder := h.inOrder.imp fun hab => hab.mono fun _ => List.mem_append_left _

/-- An element that comes behind the others places objects. -/
theorem place (h : p.TurnsAt read) (hplaces : p.PlacesAt child.positions q)
    (hchild : ∀ turn ∈ read, ∀ position ∈ child.positions, turn.position.Before position) :
    q.TurnsAt (read ++ [child]) := by
  obtain ⟨hc, objects, ht, hobjects⟩ := hplaces
  have hmono := h.mono [child]
  have hle : p.cursor.time ≤ p.cursor.reached := h.cursor.le_reached
  refine ⟨hc ▸ h.cursor, ?_, ?_, ?_, ?_⟩
  · refine ht ▸ List.forall_mem_append.mpr ⟨hmono.positions, fun object hobject => ?_⟩
    rw [Node.positionsOf_append]
    exact List.mem_append_right _ (by simpa [Node.positionsOf] using (hobjects object hobject).2.2)
  · refine ht ▸ hc ▸ List.forall_mem_append.mpr ⟨h.reached, fun object hobject => ?_⟩
    exact (hobjects object hobject).1 ▸ hle
  · refine ht ▸ hc ▸ List.forall_mem_append.mpr ⟨hmono.passed, fun object hobject => ?_⟩
    obtain ⟨htime, hmeasure, -⟩ := hobjects object hobject
    exact .before hmeasure htime.le
  · rw [ht, List.pairwise_append]
    refine ⟨hmono.inOrder, ?_, fun a ha b hb => ?_⟩
    · refine List.pairwise_of_forall_mem_list fun a ha b hb => .inl ?_
      exact ((hobjects a ha).1.trans (hobjects b hb).1.symm).le
    · obtain ⟨htime, hmeasure, hposition⟩ := hobjects b hb
      have hab : a.InOrder (· ∈ read) b := (h.passed a ha).inOrder h.cursor htime hmeasure
        fun turn hturn => hchild turn hturn _ hposition
      exact hab.mono fun _ => List.mem_append_left _

/-- The cursor moves and nothing is placed. -/
theorem move (h : p.TurnsAt read) (ht : p'.timeline = p.timeline) (hc : p.cursor.GoesOn p'.cursor)
    (hpassed : ∀ object ∈ p.timeline, object.IsPassed (· ∈ read) p'.cursor) :
    p'.TurnsAt read where
  cursor := hc.within
  positions := ht ▸ h.positions
  reached object hobject := (h.reached object (ht ▸ hobject)).trans hc.reached
  passed := ht ▸ hpassed
  inOrder := ht ▸ h.inOrder

/-- The barline stands behind all that has been placed so far. -/
theorem close (h : p.TurnsAt read) {shape : Barline} {times : Nat} {object : StaffObject Rat}
    (hclose : ClosesMeasure p p' shape times object)
    (hposition : object.position ∈ child.positions) : p'.TurnsAt (read ++ [child]) := by
  have hmono := h.mono [child]
  have hreached : ∀ other ∈ p'.timeline, other.time ≤ p.cursor.reached := by
    rw [hclose.timeline]
    exact List.forall_mem_append.mpr ⟨h.reached, List.forall_mem_singleton.mpr hclose.time.le⟩
  refine ⟨hclose.cursor ▸ h.cursor.nextMeasure, ?_, hclose.cursor ▸ hreached, ?_, ?_⟩
  · rw [hclose.timeline]
    refine List.forall_mem_append.mpr ⟨hmono.positions, List.forall_mem_singleton.mpr ?_⟩
    rw [Node.positionsOf_append]
    exact List.mem_append_right _ (by simpa [Node.positionsOf] using hposition)
  · exact fun other hother => .earlier (hclose.cursor ▸ hreached other hother)
  · rw [hclose.timeline, List.pairwise_append]
    refine ⟨hmono.inOrder, List.pairwise_singleton _ _, fun a ha b hb => ?_⟩
    obtain rfl := List.mem_singleton.mp hb
    exact .inl (hclose.time ▸ h.reached a ha)

theorem step (h : p.TurnsAt read) (hstep : TurningStep child p p')
    (hbefore : (Node.positionsOf (read ++ [child])).Pairwise Position.Before) :
    p'.TurnsAt (read ++ [child]) := by
  have hchild : ∀ a ∈ Node.positionsOf read, ∀ b ∈ child.positions, a.Before b := by
    rw [Node.positionsOf_append, List.pairwise_append] at hbefore
    simpa [Node.positionsOf] using hbefore.2.2
  cases hstep with
  | onward q hplaces ht hc htime =>
      have hq : q.TurnsAt (read ++ [child]) := h.place hplaces fun turn hturn =>
        hchild _ (Node.map_position_sublist read |>.subset (List.mem_map_of_mem hturn))
      exact hq.move ht hc fun object hobject => (hq.passed object hobject).goesOn hc htime
  | close shape times object hclose hposition => exact h.close hclose hposition
  | back hback ht hc =>
      have hmono := h.mono [child]
      refine hmono.move ht hc fun object hobject => ?_
      exact (hmono.passed object hobject).turn hc (by simp) hback
        (hchild _ (h.positions object hobject) _ child.position_mem_positions)

/-- Elements are read that stand one after the other. -/
theorem readsMusic {settings : Settings} {elements : List Node} (h : p.TurnsAt read)
    (hreads : ReadsMusic settings p elements q)
    (hbefore : (Node.positionsOf (read ++ elements)).Pairwise Position.Before) :
    q.TurnsAt (read ++ elements) := by
  induction hreads generalizing read with
  | nil => simpa using h
  | @cons p q child rest s hs _ ih =>
      obtain rfl := hs
      have happend : read ++ child :: rest = read ++ [child] ++ rest := by simp
      rw [happend] at hbefore ⊢
      have hfirst : (Node.positionsOf (read ++ [child])).Pairwise Position.Before := by
        rw [Node.positionsOf_append] at hbefore
        exact (List.pairwise_append.mp hbefore).1
      exact ih (h.step (Passage.read_turns h.cursor child) hfirst) hbefore

end Part.TurnsAt

/-! ## Timelines of analysed texts -/

/-- The timeline of an instrument turns back nowhere but at moves back in its tree. -/
structure Instrument.TurnsIn (tree : Node) (i : Instrument Rat) : Prop where
  inOrder : i.timeline.Pairwise (StaffObject.InOrder (Node.IsWithin · tree))
  /-- The time of a voice does not turn back if no move back stands between two of its objects in
  one measure. -/
  voices : ∀ voice,
    (∀ a ∈ i.timeline, ∀ b ∈ i.timeline, a.voice = voice → b.voice = voice →
      a.measure = b.measure → ∀ turn : Node, turn.IsWithin tree → turn.TurnsBack →
        ¬(a.position.Before turn.position ∧ turn.position.Before b.position)) →
    (i.timeline.filter (·.voice = voice)).Pairwise fun a b => a.time ≤ b.time

theorem Instrument.turnsIn_of_inOrder {tree : Node} {i : Instrument Rat}
    (h : i.timeline.Pairwise (StaffObject.InOrder (Node.IsWithin · tree))) : i.TurnsIn tree := by
  refine ⟨h, fun voice hvoice => ?_⟩
  refine (h.sublist List.filter_sublist).imp_of_mem fun {a b} ha hb hab => ?_
  obtain ⟨ha, hav⟩ := List.mem_filter.mp ha
  obtain ⟨hb, hbv⟩ := List.mem_filter.mp hb
  rcases hab with hab | ⟨hmeasure, turn, hturn, hback, hbetween⟩
  · exact hab
  · exact absurd hbetween (hvoice a ha b hb (of_decide_eq_true hav) (of_decide_eq_true hbv)
      hmeasure turn hturn hback)

/-- The music of an instrument is inside its element. -/
theorem Node.isWithin_of_mem_musicOf {n : Node} {children : List Node} {name : ElementName}
    {position : Position} (h : n ∈ musicOf children) :
    n.IsWithin (.element name children position) := by
  obtain ⟨child, hchild, hn⟩ := List.mem_flatMap.mp h
  split at hn
  · exact .child hchild (.child hn .here)
  · cases hn

theorem Node.positionsOf_musicOf_sublist (children : List Node) :
    (positionsOf (musicOf children)).Sublist (positionsOf children) := by
  induction children with
  | nil => exact .slnil
  | cons child rest ih =>
      have hchild : (positionsOf (musicOf [child])).Sublist child.positions := by
        rw [musicOf, List.flatMap_singleton]
        split
        · exact List.sublist_cons_self _ _
        · exact List.nil_sublist _
      rw [musicOf_cons, positionsOf_append, positionsOf]
      exact hchild.append ih

/-- No timeline turns back by itself. Times are exact here: in doubles a sum that overflows can end
in a value that is no number, and this one is before all others. -/
theorem turnsIn_of_compile {settings : Settings} {source : String} {analysis : Analysis Rat}
    (h : compile settings source = .ok analysis) :
    ∃ tree, parse source = .ok tree ∧ ∀ score ∈ analysis.document.scores,
      ∀ i ∈ score.instruments, i.TurnsIn tree := by
  obtain ⟨tree, htree, hanalyse⟩ := analyse_of_compile h
  refine ⟨tree, htree, fun score hscore i hi => ?_⟩
  obtain ⟨node, title, hnode, rfl⟩ := exists_element_of_analyse hanalyse hscore
  obtain ⟨elements, position, linking, hmem, rfl⟩ := exists_element_of_analyseScore hi
  have hwithin : (Node.element .instrument elements position).IsWithin tree :=
    (Node.isWithin_of_mem_children hmem).trans hnode
  have hbefore : (Node.positionsOf (musicOf elements)).Pairwise Position.Before :=
    (pairwise_positions_of_parse htree).sublist <|
      (Node.positionsOf_musicOf_sublist elements).trans <|
        (List.sublist_cons_self _ _).trans hwithin.positions_sublist
  have hturns := Part.TurnsAt.initial.readsMusic
    (InstrumentState.foldl_readsMusic settings (.start settings linking) elements) hbefore
  exact Instrument.turnsIn_of_inOrder <| hturns.inOrder.imp fun hab =>
    hab.mono fun turn hturn => (Node.isWithin_of_mem_musicOf hturn).trans hwithin

/-- A second voice is written behind a move back. Both voices are in order. -/
theorem turnsIn_twoVoices :
    let source := "(score (instrument (musicData (n c4 q) (n d4 q) (goBack start) (n e4 h v2))))"
    ∃ analysis : Analysis Rat, compile {} source = .ok analysis ∧
      (analysis.document.scores.map fun score => score.instruments.map fun i =>
        i.timeline.map fun object => (object.time, object.voice)) = [[[(0, 1), (64, 1), (0, 2)]]] ∧
      ∃ tree, parse source = .ok tree ∧ ∀ score ∈ analysis.document.scores,
        ∀ i ∈ score.instruments, i.TurnsIn tree := by
  intro source
  have hall : ((compile {} source : Except CompileError (Analysis Rat)).toOption.map fun analysis =>
      analysis.document.scores.map fun score => score.instruments.map fun i =>
        i.timeline.map fun object => (object.time, object.voice)) =
          some [[[(0, 1), (64, 1), (0, 2)]]] := by decide +kernel
  cases h : (compile {} source : Except CompileError (Analysis Rat)) with
  | error e => simp [h, Except.toOption] at hall
  | ok analysis =>
      simp only [h, Except.toOption, Option.map_some, Option.some.injEq] at hall
      exact ⟨analysis, rfl, hall, turnsIn_of_compile h⟩

/-- The note behind the move back does not name a voice, so its voice has three notes, of which the
last one is back at the start. -/
theorem not_pairwise_turnedVoice :
    let source := "(score (vers 2.0) (instrument (musicData (n c4 q) (n d4 q) " ++
      "(goBack start) (n e4 q))))"
    ∃ analysis : Analysis Rat, compile {} source = .ok analysis ∧
      ∃ score ∈ analysis.document.scores, ∃ i ∈ score.instruments,
        ¬(i.timeline.filter (·.voice = 1)).Pairwise fun a b => a.time ≤ b.time := by
  intro source
  have hall : ((compile {} source : Except CompileError (Analysis Rat)).toOption.map fun analysis =>
      analysis.document.scores.map fun score => score.instruments.map fun i =>
        (i.timeline.filter (·.voice = 1)).map StaffObject.time) = some [[[0, 64, 0]]] := by
    decide +kernel
  cases h : (compile {} source : Except CompileError (Analysis Rat)) with
  | error e => simp [h, Except.toOption] at hall
  | ok analysis =>
      simp only [h, Except.toOption, Option.map_some, Option.some.injEq] at hall
      obtain ⟨score, hscore, htimes⟩ := List.map_eq_singleton_iff.mp hall
      obtain ⟨i, hi, htimes⟩ := List.map_eq_singleton_iff.mp htimes
      refine ⟨analysis, rfl, score, hscore ▸ List.mem_singleton_self _, i,
        hi ▸ List.mem_singleton_self _, fun hpairwise => ?_⟩
      have hsorted := List.pairwise_map.mpr hpairwise
      rw [htimes] at hsorted
      exact absurd hsorted (by decide)

end ScorePlayback
