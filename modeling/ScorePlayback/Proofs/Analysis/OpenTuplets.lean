import ScorePlayback.Proofs.Analysis.ScoreLaws

/-! # Open tuplets

Of all relations that are open only tuplets change how long a note is, and of these only the keys
and the numbers at their starts count. Whatever else the links hold, each marker of a note changes
these in its own way. -/

namespace ScorePlayback

/-! ## The starts of tuplets -/

/-- The tuplets that are open: the key of each, and the key and the numbers at its start. -/
abbrev OpenTuplets := List (Nat × Nat × Option TupletSpec)

namespace OpenTuplets

/-- The tuplets that are open behind a marker. -/
def mark (tuplets : OpenTuplets) : Marker → OpenTuplets
  | .tupletStart key spec => Keyed.insert key (key, some spec) tuplets
  | .tupletEnd key => Keyed.erase key tuplets
  | _ => tuplets

/-- The tuplets that stay open in a note that starts tuplets with the given keys. -/
def remaining (tuplets : OpenTuplets) (keys : List Nat) : List TupletSpec :=
  (tuplets.filter fun e => !keys.contains e.2.1).filterMap fun e => e.2.2

/-- The numbers of all tuplets that are open are positive. -/
def IsProper (tuplets : OpenTuplets) : Prop := ∀ e ∈ tuplets, ∀ spec ∈ e.2.2, spec.IsProper

theorem IsProper.mark {tuplets : OpenTuplets} (h : tuplets.IsProper) {m : Marker}
    (hm : m.IsWritten) : (tuplets.mark m).IsProper := by
  cases m with
  | tupletStart key spec =>
      intro e he
      rcases Keyed.mem_insert he with rfl | he
      · rintro _ ⟨⟩
        exact hm
      · exact h e he
  | tupletEnd key => exact fun e he => h e (List.mem_filter.mp he).1
  | tie key role => exact h
  | slur key role => exact h
  | beam key role segments => exact h

theorem IsProper.remaining {tuplets : OpenTuplets} (h : tuplets.IsProper) (keys : List Nat) :
    ∀ spec ∈ tuplets.remaining keys, spec.IsProper := by
  intro spec hspec
  obtain ⟨e, he, hspec⟩ := List.mem_filterMap.mp hspec
  exact h e (List.mem_filter.mp he).1 spec hspec

end OpenTuplets

namespace Registry

def openTuplets (r : Registry (Option TupletSpec)) : OpenTuplets :=
  r.pending.map (Prod.map id fun o => (o.start.key, o.start.payload))

theorem openTuplets_start (pitchOf : Nat → Option Pitch) (r : Registry (Option TupletSpec))
    (key note : Nat) (position : Position) (spec : TupletSpec) :
    (r.mark .tuplet pitchOf ⟨key, .starts, note, position, some spec⟩).state.openTuplets =
      r.openTuplets.mark (.tupletStart key spec) :=
  Keyed.map_insert _ _ _ _

theorem openTuplets_end (pitchOf : Nat → Option Pitch) (r : Registry (Option TupletSpec))
    (key note : Nat) (position : Position) :
    (r.mark .tuplet pitchOf ⟨key, .ends, note, position, none⟩).state.openTuplets =
      r.openTuplets.mark (.tupletEnd key) := by
  show (r.markEnd .tuplet pitchOf _).state.openTuplets = Keyed.erase key r.openTuplets
  unfold markEnd
  split
  · exact Keyed.map_erase _ _ _
  · next hnone =>
    rw [openTuplets, ← Keyed.map_erase, Keyed.erase_of_find?_eq_none hnone]

theorem openTuplets_continueAll (r : Registry (Option TupletSpec)) (note : Nat)
    (position : Position) :
    (r.continueAll .tuplet note position).openTuplets = r.openTuplets := by
  rw [openTuplets, continueAll, List.map_map]
  rfl

theorem remaining_openTuplets (r : Registry (Option TupletSpec)) (keys : List Nat) :
    (r.openStarts.filter fun start => !keys.contains start.key).filterMap Endpoint.payload =
      r.openTuplets.remaining keys := by
  rw [openStarts, openTuplets, OpenTuplets.remaining, List.filter_map, List.filter_map,
    List.filterMap_map, List.filterMap_map]
  rfl

end Registry

variable {τ : Type}

/-- How long a note is depends on the tuplets that are open, and on no other part of the links. -/
theorem tupletScale_eq [TimeValue τ] (r : Registry (Option TupletSpec)) (markers : List Marker) :
    (tupletScale r markers : τ) =
      TimeValue.product
          ((r.openTuplets.remaining (Marker.tupletKeys markers)).map TupletSpec.scale) *
        TimeValue.product ((Marker.tupletSpecs markers).map TupletSpec.scale) := by
  rw [tupletScale, ← Registry.remaining_openTuplets]

/-! ## The tuplets behind a note -/

namespace Linking

def openTuplets (l : Linking τ) : OpenTuplets := l.tuplets.openTuplets

theorem tuplets_addClosed {π : Type} (l : Linking τ) (c : Option (ClosedRelation π)) :
    (l.addClosed c).tuplets = l.tuplets := by
  cases c <;> rfl

theorem tuplets_beamAutomatically (settings : Settings) (members : List Nat) (l : Linking τ) :
    (l.beamAutomatically settings members).tuplets = l.tuplets := by
  unfold beamAutomatically
  split <;> rfl

theorem tuplets_addBeam (settings : Settings) (parts : List (Nat × List BeamSegment))
    (l : Linking τ) : (l.addBeam settings parts).tuplets = l.tuplets := by
  show (if l.isWritten parts then l.writeBeam parts
    else l.beamAutomatically settings (parts.map Prod.fst)).tuplets = _
  split
  · rfl
  · exact tuplets_beamAutomatically settings _ l

/-- Markers of other kinds leave the tuplets as they are. -/
theorem tuplets_applyMarker (settings : Settings) (note : Nat) (position : Position)
    (l : Linking τ) {m : Marker} (hm : m.isTuplet = false) :
    (l.applyMarker settings note position m).tuplets = l.tuplets := by
  unfold applyMarker
  cases m with
  | tie key role => exact tuplets_addClosed _ _
  | slur key role => exact tuplets_addClosed _ _
  | beam key role segments =>
      dsimp only
      split
      · exact tuplets_addBeam settings _ _
      · rfl
  | tupletStart key spec => cases hm
  | tupletEnd key => cases hm

theorem openTuplets_applyMarker (settings : Settings) (note : Nat) (position : Position)
    (l : Linking τ) (m : Marker) :
    (l.applyMarker settings note position m).openTuplets = l.openTuplets.mark m := by
  have hother (hm : m.isTuplet = false) :
      (l.applyMarker settings note position m).openTuplets = l.openTuplets :=
    congrArg Registry.openTuplets (l.tuplets_applyMarker settings note position hm)
  cases m with
  | tie key role => exact hother rfl
  | slur key role => exact hother rfl
  | beam key role segments => exact hother rfl
  | tupletStart key spec =>
      exact (congrArg Registry.openTuplets (tuplets_addClosed _ _)).trans
        (Registry.openTuplets_start l.pitchOf _ _ _ _ _)
  | tupletEnd key =>
      exact (congrArg Registry.openTuplets (tuplets_addClosed _ _)).trans
        (Registry.openTuplets_end l.pitchOf _ _ _ _)

theorem openTuplets_applyMarkers (settings : Settings) (note : Nat) (position : Position)
    (inChord : Bool) (markers : List Marker) (l : Linking τ) :
    (l.applyMarkers settings note position inChord markers).openTuplets =
      markers.foldl OpenTuplets.mark l.openTuplets := by
  have hfold : (markers.foldl (applyMarker settings note position) l).openTuplets =
      markers.foldl OpenTuplets.mark l.openTuplets := by
    induction markers generalizing l with
    | nil => rfl
    | cons m rest ih => rw [List.foldl_cons, ih, openTuplets_applyMarker, List.foldl_cons]
  unfold applyMarkers
  dsimp only
  split
  · exact hfold
  · exact (Registry.openTuplets_continueAll _ _ _).trans hfold

theorem tuplets_closeLegacyTie [TimeValue τ] (note : Nat) (time : τ) (l : Linking τ) :
    (l.closeLegacyTie note time).tuplets = l.tuplets := by
  unfold closeLegacyTie
  dsimp only
  split <;> rfl

theorem tuplets_applyLegacyBeam (settings : Settings) (note : Nat) (position : Position)
    (inChord : Bool) (mark : Option BeamMark) (l : Linking τ) :
    (l.applyLegacyBeam settings note position inChord mark).tuplets = l.tuplets := by
  unfold applyLegacyBeam
  split
  · rfl
  · dsimp only
    split
    · exact tuplets_beamAutomatically settings _ _
    · rfl
  · split <;> rfl

end Linking

variable [TimeValue τ]

namespace Passage

/-- The links to which the markers of a note are told: the note has been added and its legacy marks
have been read. -/
def beforeMarkers (settings : Settings) (s : Passage τ) (reading : NoteReading)
    (position : Position) (inChord : Bool) : Linking τ :=
  let spec := reading.spec
  let note := s.realize spec position inChord
  let number := s.linking.notes.length
  let time := s.part.cursor.time
  let linking := (s.linking.reject reading.rejections).addNote note
  let linking := if note.pitch.isSome then linking.closeLegacyTie number time else linking
  let linking := if note.pitch.isSome && spec.legacyTie
    then linking.startLegacyTie ⟨number, time, note.voice, position⟩ else linking
  linking.applyLegacyBeam settings number position inChord spec.legacyBeam

theorem linking_placeNote (settings : Settings) (s : Passage τ) (reading : NoteReading)
    (position : Position) (inChord : Bool) :
    (s.placeNote settings reading position inChord).linking =
      (s.beforeMarkers settings reading position inChord).applyMarkers settings
        s.linking.notes.length position inChord reading.spec.markers := rfl

theorem tuplets_beforeMarkers (settings : Settings) (s : Passage τ) (reading : NoteReading)
    (position : Position) (inChord : Bool) :
    (s.beforeMarkers settings reading position inChord).tuplets = s.linking.tuplets := by
  unfold beforeMarkers
  dsimp only
  rw [Linking.tuplets_applyLegacyBeam]
  split
  · split
    · exact Linking.tuplets_closeLegacyTie _ _ _
    · rfl
  · split
    · exact Linking.tuplets_closeLegacyTie _ _ _
    · rfl

theorem openTuplets_placeNote (settings : Settings) (s : Passage τ) (reading : NoteReading)
    (position : Position) (inChord : Bool) :
    (s.placeNote settings reading position inChord).linking.openTuplets =
      reading.spec.markers.foldl OpenTuplets.mark s.linking.openTuplets := by
  rw [linking_placeNote, Linking.openTuplets_applyMarkers, Linking.openTuplets,
    tuplets_beforeMarkers]
  rfl

end Passage

/-! ## Notes take time -/

theorem isScoreLaw_properTuplets (settings : Settings) :
    IsScoreLaw settings fun _ (l : Linking τ) _ => l.openTuplets.IsProper where
  initial := nofun
  report _ h := h
  object _ h := h
  note := fun {_ s reading} position inChord hreading h => by
    rw [s.openTuplets_placeNote]
    exact List.foldlRecOn (motive := OpenTuplets.IsProper) _ _ h
      fun _ htuplets m hm => htuplets.mark (hreading m hm)
  complete h := h

theorem zero_lt_addDots {total added : Rat} (htotal : 0 < total) (hadded : 0 < added)
    (dots : Nat) : 0 < WrittenDuration.addDots total added dots := by
  induction dots generalizing total added with
  | zero => exact htotal
  | succ dots ih =>
      have hhalf : (0 : Rat) < added / TimeValue.ofNat 2 := div_pos hadded (by decide)
      exact ih (add_pos htotal hhalf) hhalf

theorem WrittenDuration.zero_lt_units (d : WrittenDuration) : (0 : Rat) < d.units := by
  have hvalue : (0 : Rat) < TimeValue.ofNat d.value.units := by
    cases d.value <;> decide
  exact zero_lt_addDots hvalue hvalue d.dots

theorem TupletSpec.IsProper.zero_lt_scale {spec : TupletSpec} (h : spec.IsProper) :
    (0 : Rat) < spec.scale :=
  div_pos (Nat.cast_pos.mpr h.2) (Nat.cast_pos.mpr h.1)

theorem zero_lt_product {specs : List TupletSpec} (h : ∀ spec ∈ specs, spec.IsProper) :
    (0 : Rat) < TimeValue.product (specs.map TupletSpec.scale) := by
  rw [TimeValue.product, List.foldl_map]
  refine List.foldlRecOn (motive := fun scale : Rat => 0 < scale) specs _ (by decide) ?_
  exact fun scale hscale spec hspec => mul_pos hscale (h spec hspec).zero_lt_scale

theorem Passage.zero_lt_realize {s : Passage Rat} (hs : s.linking.openTuplets.IsProper)
    {reading : NoteReading} (h : reading.IsWritten) (position : Position) (inChord : Bool) :
    0 < (s.realize reading.spec position inChord).duration := by
  refine mul_pos reading.spec.duration.zero_lt_units ?_
  rw [tupletScale_eq]
  refine mul_pos (zero_lt_product (hs.remaining _)) (zero_lt_product fun spec hspec => ?_)
  obtain ⟨m, hm, hspec⟩ := List.mem_filterMap.mp hspec
  split at hspec
  · exact Option.some.inj hspec ▸ h _ hm
  · simp at hspec

end ScorePlayback
