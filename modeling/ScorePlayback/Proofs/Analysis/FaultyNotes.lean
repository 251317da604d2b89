import ScorePlayback.Proofs.Analysis.Reporting

/-! # Faults of notes and rests

Whether a note, a rest or one of their options has a fault does not depend on what is around. An
option with a fault is only reported. -/

namespace ScorePlayback

open Reporting (behind)

/-! ## Readings do not depend on the tuplets around them -/

namespace Marker

theorem foldlM_readTupletOption_error {display : TupletDisplay} (display' : TupletDisplay)
    {options : List Node} {fault : GrammarFault}
    (h : options.foldlM readTupletOption display = .error fault) :
    options.foldlM readTupletOption display' = .error fault := by
  induction options generalizing display display' with
  | nil => cases h
  | cons option rest ih =>
      rw [List.foldlM_cons] at h ⊢
      unfold readTupletOption at h ⊢
      split at h
      · exact ih _ h
      · exact ih _ h
      · exact ih _ h
      · exact ih _ h
      · exact h

theorem readTuplet_error {display : TupletDisplay} (display' : TupletDisplay) {marker : Node}
    {fault : GrammarFault} (h : readTuplet display marker = .error fault) :
    readTuplet display' marker = .error fault := by
  unfold readTuplet at h ⊢
  revert h
  split
  · exact id
  · split
    · exact id
    · split
      · next options _ _ _ _ _ _ _ _ =>
        cases hdisplay : options.foldlM readTupletOption display with
        | error fault' =>
            intro h
            obtain rfl : fault' = fault := Except.error.inj h
            rw [foldlM_readTupletOption_error display' hdisplay]
            rfl
        | ok d => exact fun h => nomatch h
      · exact id
    · exact id

end Marker

theorem NoteOption.read_error {settings : Settings} {isNote : Bool} {display : TupletDisplay}
    (display' : TupletDisplay) {item : Node} {fault : GrammarFault}
    (h : read settings isNote display item = .error fault) :
    read settings isNote display' item = .error fault := by
  cases item with
  | atom kind text position => cases kind <;> exact h
  | element name children position =>
      cases name with
      | tuplet =>
          -- the only option that looks at the tuplets around it
          have hmap {d : TupletDisplay} :
              read settings isNote d (.element .tuplet children position) =
                (Marker.readTuplet d (.element .tuplet children position)).map .marker := rfl
          rw [hmap] at h ⊢
          cases hread : Marker.readTuplet display (.element .tuplet children position) with
          | error fault' =>
              rw [hread] at h
              rw [Marker.readTuplet_error display' hread]
              exact h
          | ok marker => rw [hread] at h; cases h
      | _ => exact h

namespace NoteReading

variable {settings : Settings} {display : TupletDisplay}

theorem readRest_error (display' : TupletDisplay) {pitch : Option Pitch} {items : List Node}
    {fault : GrammarFault} (h : readRest settings display pitch items = .error fault) :
    readRest settings display' pitch items = .error fault := by
  cases items with
  | nil => exact h
  | cons item options =>
      simp only [readRest] at h ⊢
      revert h
      split
      · exact fun h => nomatch h
      · exact id

theorem read_error (display' : TupletDisplay) {isNote : Bool} {items : List Node}
    {fault : GrammarFault} (h : read settings display isNote items = .error fault) :
    read settings display' isNote items = .error fault := by
  cases isNote with
  | false => exact readRest_error display' h
  | true =>
      cases items with
      | nil => exact h
      | cons item rest =>
          simp only [read, if_true] at h ⊢
          revert h
          split
          · exact readRest_error display'
          · exact id

/-- The duration in front of the options does not depend on them. -/
theorem readRest_ok {pitch : Option Pitch} {item : Node} {options : List Node}
    {reading : NoteReading} (h : readRest settings display pitch (item :: options) = .ok reading) :
    ∃ duration, ∀ display' options', readRest settings display' pitch (item :: options') =
      .ok (options'.foldl (readOption settings pitch.isSome)
        ⟨{ pitch, duration }, display', []⟩) := by
  simp only [readRest] at h ⊢
  split at h
  · next duration _ => exact ⟨duration, fun _ _ => rfl⟩
  · cases h

/-- The duration of a rest does not depend on its options. -/
theorem read_rest_ok {item : Node} {options : List Node} {reading : NoteReading}
    (h : read settings display false (item :: options) = .ok reading) :
    ∃ duration, ∀ display' options', read settings display' false (item :: options') =
      .ok (options'.foldl (readOption settings false)
        ⟨{ pitch := none, duration }, display', []⟩) :=
  readRest_ok h

/-- The pitch and the duration of a note do not depend on its options. -/
theorem read_note_ok {first second : Node} {options : List Node} {reading : NoteReading}
    (h : read settings display true (first :: second :: options) = .ok reading) :
    ∃ pitch duration, ∀ display' options',
      read settings display' true (first :: second :: options') =
        .ok (options'.foldl (readOption settings true)
          ⟨{ pitch := some pitch, duration }, display', []⟩) := by
  simp only [read, if_true] at h ⊢
  split at h
  · next pitch _ =>
    obtain ⟨duration, hduration⟩ := readRest_ok h
    exact ⟨pitch, duration, hduration⟩
  · cases h

end NoteReading

/-! ## Options of notes and rests -/

instance : Reporting Rejection NoteReading where
  behind found r := { r with rejections := found ++ r.rejections }

namespace NoteReading

variable (settings : Settings) (isNote : Bool)

theorem readOption_behind (front : List Rejection) (r : NoteReading) (item : Node) :
    readOption settings isNote (behind front r) item =
      behind front (readOption settings isNote r item) := by
  have hdisplay : (behind front r).display = r.display := rfl
  unfold readOption
  rw [hdisplay]
  split
  · rfl
  · simp [behind]

variable {settings isNote}

theorem omits_readOption {display : TupletDisplay} {item : Node} {fault : GrammarFault}
    (h : NoteOption.read settings isNote display item = .error fault) (r : NoteReading) :
    Omits [⟨fault, item.position⟩] (readOption settings isNote r item) r := by
  refine ⟨r.rejections, { r with rejections := [] }, ?_, by simp [behind]⟩
  simp [readOption, NoteOption.read_error r.display h, behind]

theorem omits_options {display : TupletDisplay} {dropped : Node} {fault : GrammarFault}
    (h : NoteOption.read settings isNote display dropped = .error fault)
    (before after : List Node) (r : NoteReading) :
    Omits [⟨fault, dropped.position⟩]
      ((before ++ dropped :: after).foldl (readOption settings isNote) r)
      ((before ++ after).foldl (readOption settings isNote) r) :=
  Omits.foldl_erase (fun item front r => readOption_behind settings isNote front r item)
    (omits_readOption h) before after r

end NoteReading

/-! ## Notes and rests -/

namespace Passage

variable {τ : Type}

theorem reject_append (s : Passage τ) (first second : List Rejection) :
    s.reject (first ++ second) = (s.reject first).reject second := by
  simp [reject, Linking.reject, Linking.report]

theorem reject_nil (s : Passage τ) : s.reject [] = s := by
  simp [reject, Linking.reject, Linking.report]

variable [TimeValue τ] {settings : Settings} {dropped : Node} {rejections : List Rejection}

/-- The options of a note that were dropped are reported in front of its links. -/
theorem placeNote_rejections (s : Passage τ) (front : List Rejection) (r : NoteReading)
    (position : Position) (inChord : Bool) :
    s.placeNote settings (behind front r) position inChord =
      (s.reject front).placeNote settings r position inChord := by
  have hreject : (s.reject front).linking.reject r.rejections =
      s.linking.reject (front ++ r.rejections) := by
    simp [reject, Linking.reject, Linking.report]
  unfold placeNote
  rw [hreject]
  rfl

theorem omits_addNote {isNote : Bool} {items items' : List Node} (s : Passage τ)
    (hread : ∃ reading reading' : NoteReading, Omits rejections reading reading' ∧
      NoteReading.read settings s.inherited.display isNote items = .ok reading ∧
      NoteReading.read settings s.inherited.display isNote items' = .ok reading')
    (position : Position) (inChord : Bool) :
    Omits (rejections.map Rejection.diagnostic) (s.addNote settings isNote items position inChord)
      (s.addNote settings isNote items' position inChord) := by
  obtain ⟨_, _, ⟨front, r, rfl, rfl⟩, hitems, hitems'⟩ := hread
  let duration := (s.realize r.spec position inChord).duration
  have hplace : Unaware fun s : Passage τ =>
      (s.placeNote settings r position inChord, some duration) :=
    fun found s => congrArg (·, some duration)
      (placeNote_behind settings found s r position inChord)
  have homits := ((s.reject front).omits_reject rejections).map hplace
  unfold addNote
  rw [hitems, hitems']
  dsimp only
  rwa [placeNote_rejections, placeNote_rejections, reject_append]

theorem addNote_error {isNote : Bool} {display : TupletDisplay} {items : List Node}
    {fault : GrammarFault} (h : NoteReading.read settings display isNote items = .error fault)
    (s : Passage τ) (position : Position) (inChord : Bool) :
    s.addNote settings isNote items position inChord = (s.reject [⟨fault, position⟩], none) := by
  simp [addNote, NoteReading.read_error s.inherited.display h]

end Passage

end ScorePlayback
