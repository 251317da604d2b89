import Mathlib.Logic.Relation
import ScorePlayback.Compile
import ScorePlayback.Proofs.Time.Order

/-! # How the part of an instrument grows

Whatever an element of music says, it changes the part of its instrument in few ways: objects
go onto the timeline where the cursor stands, the cursor moves by lengths of time, and a
barline closes the measure. Laws of timelines are laws of these steps. -/

namespace ScorePlayback

variable {τ : Type} [TimeValue τ]

/-! ## Steps -/

/-- A step inside a measure. It may only place objects that are allowed. -/
inductive PartStep (allowed : StaffObject τ → Prop) (p p' : Part τ) : Prop where
  | stay (ht : p'.timeline = p.timeline) (hc : p'.cursor = p.cursor)
  | place (object : StaffObject τ) (hobject : allowed object)
      (htime : object.time = p.cursor.time) (hmeasure : object.measure = p.cursor.measure)
      (ht : p'.timeline = p.timeline ++ [object]) (hc : p'.cursor = p.cursor)
  | advance (amount : τ) (hamount : IsLength amount) (ht : p'.timeline = p.timeline)
      (hc : p'.cursor = p.cursor.advance amount)
  | catchUp (ht : p'.timeline = p.timeline)
      (hc : p'.cursor = p.cursor.forwardTo p.cursor.reached)
  | goBack (time : τ) (ht : p'.timeline = p.timeline) (hc : p'.cursor = p.cursor.backTo time)

abbrev PartSteps (allowed : StaffObject τ → Prop) : Part τ → Part τ → Prop :=
  Relation.ReflTransGen (PartStep allowed)

/-- A barline stands where the longest voice ends and closes the measure. -/
structure ClosesMeasure (p p' : Part τ) (shape : Barline) (times : Nat)
    (object : StaffObject τ) : Prop where
  symbol : object.symbol = .barline shape times
  time : object.time = p.cursor.reached
  measure : object.measure = p.cursor.measure
  voice : object.voice = 0
  timeline : p'.timeline = p.timeline ++ [object]
  cursor : p'.cursor = p.cursor.nextMeasure

theorem PartSteps.mono {allowed allowed' : StaffObject τ → Prop} {p p' : Part τ}
    (hall : ∀ object, allowed object → allowed' object) (h : PartSteps allowed p p') :
    PartSteps allowed' p p' := by
  refine Relation.ReflTransGen.mono (fun a b hab => ?_) p p' h
  cases hab with
  | stay ht hc => exact .stay ht hc
  | place object hobject htime hmeasure ht hc =>
      exact .place object (hall object hobject) htime hmeasure ht hc
  | advance amount hamount ht hc => exact .advance amount hamount ht hc
  | catchUp ht hc => exact .catchUp ht hc
  | goBack time ht hc => exact .goBack time ht hc

namespace PartStep

variable {allowed : StaffObject τ → Prop} {p p' : Part τ}

/-- A step leaves the timeline as it is, or places one object where the cursor stands. -/
theorem timeline_cases (h : PartStep allowed p p') :
    p'.timeline = p.timeline ∨ ∃ object, allowed object ∧ object.time = p.cursor.time ∧
      object.measure = p.cursor.measure ∧ p'.timeline = p.timeline ++ [object] := by
  cases h with
  | stay ht _ => exact .inl ht
  | place object hobject htime hmeasure ht _ => exact .inr ⟨object, hobject, htime, hmeasure, ht⟩
  | advance _ _ ht _ => exact .inl ht
  | catchUp ht _ => exact .inl ht
  | goBack _ ht _ => exact .inl ht

/-- The cursor stays in its measure. -/
theorem sameMeasure (h : PartStep allowed p p') :
    p'.cursor.measure = p.cursor.measure ∧ p'.cursor.measureStart = p.cursor.measureStart := by
  cases h with
  | stay _ hc => simp [hc]
  | place _ _ _ _ _ hc => simp [hc]
  | advance _ _ _ hc => simp [hc, Cursor.advance, Cursor.forwardTo]
  | catchUp _ hc => simp [hc, Cursor.forwardTo]
  | goBack _ _ hc => simp [hc, Cursor.backTo]

/-- The place that has been reached does not move back. -/
theorem reached_le [OrderedTime τ] (h : PartStep allowed p p')
    (hzero : TimeValue.NotLater TimeValue.zero p.cursor.reached) :
    TimeValue.NotLater p.cursor.reached p'.cursor.reached := by
  cases h with
  | stay _ hc => exact hc ▸ OrderedTime.refl _
  | place _ _ _ _ _ hc => exact hc ▸ OrderedTime.refl _
  | advance amount _ _ hc => exact hc ▸ OrderedTime.le_later _ hzero
  | catchUp _ hc => exact hc ▸ OrderedTime.le_later _ hzero
  | goBack _ _ hc => exact hc ▸ OrderedTime.refl _

end PartStep

/-- The part has an object in a measure. -/
def Part.Bears (p : Part τ) (measure : Nat) : Prop :=
  ∃ object ∈ p.timeline, object.measure = measure

namespace PartSteps

variable {allowed : StaffObject τ → Prop} {p p' : Part τ}

theorem sameMeasure (h : PartSteps allowed p p') : p'.cursor.measure = p.cursor.measure := by
  induction h with
  | refl => rfl
  | tail _ hstep ih => exact hstep.sameMeasure.1.trans ih

theorem bears (h : PartSteps allowed p p') {measure : Nat} (hbears : p.Bears measure) :
    p'.Bears measure := by
  induction h with
  | refl => exact hbears
  | tail _ hstep ih =>
      obtain ⟨object, hobject, hmeasure⟩ := ih
      refine ⟨object, ?_, hmeasure⟩
      rcases hstep.timeline_cases with ht | ⟨other, -, -, -, ht⟩
      · exact ht ▸ hobject
      · exact ht ▸ List.mem_append_left _ hobject

end PartSteps

/-! ## The cursor in time -/

open TimeValue (NotLater IsUndefined)

/-- The cursor is not in front of its measure unless it has lost its time, and the place that has
been reached is not in front of it. -/
structure Cursor.IsTimed (c : Cursor τ) : Prop where
  zero_le : NotLater TimeValue.zero c.measureStart
  start_le_time : NotLater c.measureStart c.time ∨ IsUndefined c.time
  start_le_reached : NotLater c.measureStart c.reached

namespace Cursor.IsTimed

variable [RoundedTime τ] {c : Cursor τ}

theorem initial : (Cursor.initial : Cursor τ).IsTimed :=
  ⟨OrderedTime.refl _, .inl (OrderedTime.refl _), OrderedTime.refl _⟩

theorem zero_le_reached (h : c.IsTimed) : NotLater TimeValue.zero c.reached :=
  OrderedTime.trans h.zero_le h.start_le_reached

theorem forwardTo (h : c.IsTimed) {time : τ}
    (htime : NotLater c.measureStart time ∨ IsUndefined time) :
    (c.forwardTo time).IsTimed where
  zero_le := h.zero_le
  start_le_time := htime
  start_le_reached :=
    OrderedTime.trans h.start_le_reached (OrderedTime.le_later time h.zero_le_reached)

theorem nextMeasure (h : c.IsTimed) : c.nextMeasure.IsTimed :=
  ⟨h.zero_le_reached, .inl (OrderedTime.refl _), OrderedTime.refl _⟩

theorem of_partStep {allowed : StaffObject τ → Prop} {p p' : Part τ} (h : p.cursor.IsTimed)
    (hs : PartStep allowed p p') : p'.cursor.IsTimed := by
  cases hs with
  | stay _ hc => exact hc ▸ h
  | place _ _ _ _ _ hc => exact hc ▸ h
  | advance amount hamount _ hc =>
      rw [hc]
      refine h.forwardTo ?_
      rcases h.start_le_time with hle | hlost
      · exact (RoundedTime.le_add (OrderedTime.trans h.zero_le hle) hamount.isAmount).imp_left
          (OrderedTime.trans hle)
      · exact .inr (RoundedTime.undefined_add amount hlost)
  | catchUp _ hc => exact hc ▸ h.forwardTo (.inl h.start_le_reached)
  | goBack time _ hc =>
      rw [hc]
      exact ⟨h.zero_le, .inl (ComparableTime.right_le_later time _), h.start_le_reached⟩

end Cursor.IsTimed

/-! ## Durations are lengths -/

theorem isLength_addDots {total added : τ} (ht : IsLength total) (ha : IsLength added)
    (dots : Nat) : IsLength (WrittenDuration.addDots total added dots) := by
  induction dots generalizing total added with
  | zero => exact ht
  | succ dots ih => exact ih (ht.add (ha.div 2)) (ha.div 2)

theorem isLength_units (d : WrittenDuration) : IsLength (d.units : τ) :=
  isLength_addDots (.units _) (.units _) _

theorem isLength_scale (t : TupletSpec) : IsLength (t.scale : τ) := (IsLength.units _).div _

theorem isLength_tupletScale (tuplets : Registry (Option TupletSpec)) (markers : List Marker) :
    IsLength (tupletScale tuplets markers : τ) := by
  refine (isLength_product ?_).mul (isLength_product ?_)
  · intro a ha
    obtain ⟨t, -, rfl⟩ := List.mem_map.mp ha
    exact isLength_scale t
  · intro a ha
    obtain ⟨t, -, rfl⟩ := List.mem_map.mp ha
    exact isLength_scale t

theorem isLength_realize (s : Passage τ) (spec : NoteSpec) (position : Position)
    (inChord : Bool) : IsLength (s.realize spec position inChord).duration :=
  (isLength_units _).mul (isLength_tupletScale _ _)

theorem isLength_of_readMove {mark : String} {fault : GrammarFault} {node : Node} {amount : τ}
    (h : Control.readMove mark fault node = .ok (.by amount)) : IsLength amount := by
  unfold Control.readMove at h
  split at h
  · simp at h
  · next target _ _ =>
    split at h
    · simp at h
    · split at h
      · next value hvalue =>
        simp only [Except.ok.injEq, Control.Move.by.injEq] at h
        subst h
        unfold Control.readAmount? at hvalue
        split at hvalue
        · simp only [Option.bind_eq_some_iff] at hvalue
          obtain ⟨n, -, hn⟩ := hvalue
          split at hn
          · next hle =>
            rw [← Option.some.inj hn]
            exact .checked hle
          · simp at hn
        · obtain ⟨d, -, rfl⟩ := Option.map_eq_some_iff.mp hvalue
          exact isLength_units d
        · simp at hvalue
      · simp at h

/-! ## Elements of music -/

/-- What an element may place inside a measure: brackets are placed by brackets alone, and no
barline is placed there. -/
def Node.Places (n : Node) (object : StaffObject τ) : Prop :=
  match object.symbol with
  | .barline _ _ => False
  | .volta _ _ => n.kind = .element .volta ∧ object.voice = 0
  | _ => True

def AllowsNotes (allowed : StaffObject τ → Prop) : Prop :=
  ∀ object note, object.symbol = .noteRest note → allowed object

omit [TimeValue τ] in
theorem Node.allowsNotes_places (n : Node) : AllowsNotes (n.Places : StaffObject τ → Prop) := by
  intro object note h
  simp [Node.Places, h]

omit [TimeValue τ] in
/-- An accidental neither goes onto the timeline nor moves the cursor. -/
theorem Part.remember_eq (part : Part τ) (pitch : Option Pitch) :
    (pitch.elim part part.remember).timeline = part.timeline ∧
      (pitch.elim part part.remember).cursor = part.cursor := by
  cases pitch with
  | none => exact ⟨rfl, rfl⟩
  | some pitch =>
      unfold Option.elim remember
      dsimp only
      split <;> exact ⟨rfl, rfl⟩

namespace Passage

variable {allowed : StaffObject τ → Prop}

theorem placeNote_steps (hallowed : AllowsNotes allowed)
    (settings : Settings) (s : Passage τ) (reading : NoteReading) (position : Position)
    (inChord : Bool) :
    PartSteps allowed s.part (s.placeNote settings reading position inChord).part := by
  obtain ⟨htimeline, hcursor⟩ := s.part.remember_eq reading.spec.pitch
  have hremember : PartStep allowed s.part (reading.spec.pitch.elim s.part s.part.remember) :=
    .stay htimeline hcursor
  refine (Relation.ReflTransGen.single hremember).tail ?_
  refine .place (s.objectOf s.linking.notes.length (s.realize reading.spec position inChord))
    (hallowed _ _ rfl) ?_ ?_ rfl rfl
  · rw [hcursor]; rfl
  · rw [hcursor]; rfl

theorem addNote_steps (hallowed : AllowsNotes allowed)
    (settings : Settings) (s : Passage τ) (isNote : Bool) (items : List Node)
    (position : Position) (inChord : Bool) :
    PartSteps allowed s.part (s.addNote settings isNote items position inChord).1.part ∧
      ∀ d ∈ (s.addNote settings isNote items position inChord).2, IsLength d := by
  unfold addNote
  split
  · refine ⟨placeNote_steps hallowed _ _ _ _ _, ?_⟩
    rintro d ⟨⟩
    exact isLength_realize _ _ _ _
  · exact ⟨.refl, by simp⟩

theorem addSingle_steps (hallowed : AllowsNotes allowed)
    (settings : Settings) (s : Passage τ) (isNote : Bool) (items : List Node)
    (position : Position) :
    PartSteps allowed s.part (s.addSingle settings isNote items position).part := by
  obtain ⟨hsteps, hlength⟩ := addNote_steps hallowed settings s isNote items position false
  unfold addSingle
  generalize s.addNote settings isNote items position false = result at hsteps hlength
  obtain ⟨s', duration⟩ := result
  cases duration with
  | none => exact hsteps
  | some d => exact hsteps.tail (.advance d (hlength d rfl) rfl rfl)

theorem addChordNote_steps (hallowed : AllowsNotes allowed) (settings : Settings)
    (s : Passage τ) {first : Option τ} (hfirst : ∀ d ∈ first, IsLength d) (child : Node) :
    PartSteps allowed s.part (addChordNote settings (s, first) child).1.part ∧
      ∀ d ∈ (addChordNote settings (s, first) child).2, IsLength d := by
  unfold addChordNote
  dsimp only
  split
  · next items position =>
    have hnote := addNote_steps hallowed settings s true items position first.isSome
    refine ⟨hnote.1, ?_⟩
    cases first with
    | none => simpa using hnote.2
    | some d => simpa using hfirst
  · exact ⟨.refl, hfirst⟩

theorem foldl_addChordNote_steps (hallowed : AllowsNotes allowed) (settings : Settings)
    (children : List Node) (state : Passage τ × Option τ) (hfirst : ∀ d ∈ state.2, IsLength d) :
    PartSteps allowed state.1.part (children.foldl (addChordNote settings) state).1.part ∧
      ∀ d ∈ (children.foldl (addChordNote settings) state).2, IsLength d := by
  induction children generalizing state with
  | nil => exact ⟨.refl, hfirst⟩
  | cons child rest ih =>
      have hnote := addChordNote_steps hallowed settings state.1 hfirst child
      have hrest := ih (addChordNote settings state child) hnote.2
      exact ⟨hnote.1.trans hrest.1, hrest.2⟩

theorem addChord_steps (hallowed : AllowsNotes allowed) (settings : Settings) (s : Passage τ)
    (children : List Node) (position : Position) :
    PartSteps allowed s.part (s.addChord settings children position).part := by
  obtain ⟨hsteps, hlength⟩ :=
    foldl_addChordNote_steps hallowed settings children (s, none) nofun
  unfold addChord
  generalize children.foldl (addChordNote settings) (s, none) = result at hsteps hlength
  obtain ⟨s', first⟩ := result
  cases first with
  | none => exact hsteps
  | some d => exact hsteps.tail (.advance d (hlength d rfl) rfl rfl)

theorem accept_steps {α : Type} (s : Passage τ)
    (position : Position) (reading : Except GrammarFault α) (use : α → Passage τ)
    (huse : ∀ value, reading = .ok value → PartSteps allowed s.part (use value).part) :
    PartSteps allowed s.part (s.accept position reading use).part := by
  cases reading with
  | ok value => exact huse value rfl
  | error fault => exact .refl

theorem addSymbol_steps (s : Passage τ) (symbol : StaffSymbol)
    (position : Position) (h : allowed (s.mark s.part.cursor.time symbol position)) :
    PartSteps allowed s.part (s.addSymbol symbol position).part :=
  .single (.place _ h rfl rfl rfl rfl)

theorem addBarline_closes (s : Passage τ) (b : Control.BarlineSpec) (position : Position) :
    ClosesMeasure s.part (s.addBarline b position).part b.shape b.times
      (s.mark s.part.cursor.reached (.barline b.shape b.times) position) :=
  ⟨rfl, rfl, rfl, rfl, rfl, rfl⟩

/-- What an element of music does to the part. -/
theorem read_steps (settings : Settings) (s : Passage τ) (child : Node) :
    PartSteps child.Places s.part (read settings s child).part ∨
      ∃ shape times object, child.kind = .element .barline ∧
        Control.readBarline settings child = .ok ⟨shape, times⟩ ∧
        ClosesMeasure s.part (read settings s child).part shape times object := by
  have hnote : AllowsNotes (child.Places : StaffObject τ → Prop) := child.allowsNotes_places
  unfold read
  split
  · exact .inl (addSingle_steps hnote settings s true _ _)
  · exact .inl (addSingle_steps hnote settings s false _ _)
  · exact .inl (addChord_steps hnote settings s _ _)
  · refine .inl (accept_steps s _ _ _ fun clef _ => addSymbol_steps s _ _ ?_)
    simp [Node.Places, mark]
  · refine .inl (accept_steps s _ _ _ fun key _ => ?_)
    refine (addSymbol_steps s (.key key) _ ?_).tail (.stay rfl rfl)
    simp [Node.Places, mark]
  · refine .inl (accept_steps s _ _ _ fun meter _ => addSymbol_steps s _ _ ?_)
    simp [Node.Places, mark]
  · split
    · next b hb => exact .inr ⟨_, _, _, rfl, hb, addBarline_closes s b _⟩
    · exact .inl .refl
  · refine .inl (accept_steps s _ _ _ fun bracket _ => addSymbol_steps s _ _ ?_)
    simp [Node.Places, mark, Node.kind]
  · refine .inl (accept_steps s _ _ _ fun move hmove => ?_)
    cases move with
    | toMark => exact .single (.goBack _ rfl rfl)
    | «by» amount => exact .single (.goBack _ rfl rfl)
  · refine .inl (accept_steps s _ _ _ fun move hmove => ?_)
    cases move with
    | toMark => exact .single (.catchUp rfl rfl)
    | «by» amount => exact .single (.advance amount (isLength_of_readMove hmove) rfl rfl)
  · exact .inl .refl

end Passage
end ScorePlayback
