import ScorePlayback.Proofs.Analysis.DocumentScores
import ScorePlayback.Proofs.Analysis.Omissions
import ScorePlayback.Proofs.Analysis.ReadingLog

/-! # Trees without legacy options

Where the legacy syntax is off, the options `l`, `g+` and `g-` of a note or rest are rejected.
Otherwise the note is read as if they were not there. -/

namespace ScorePlayback

open Reporting (behind)

/-! ## Trees without legacy options -/

def Node.isLegacyOption (n : Node) : Bool := n.label?.any NoteOption.isLegacy

/-- The number of items in front of the options of a note or rest. -/
def NoteOption.frontOf (isNote : Bool) : Nat := if isNote then 2 else 1

/-- The items of a note or rest without its legacy options. -/
def NoteOption.dropLegacy (isNote : Bool) (items : List Node) : List Node :=
  items.take (frontOf isNote) ++ (items.drop (frontOf isNote)).filter (!·.isLegacyOption)

/-- The children of an element without legacy options, which only notes and rests have. -/
def ElementName.dropLegacy (name : ElementName) (children : List Node) : List Node :=
  match name with
  | .note => NoteOption.dropLegacy true children
  | .rest => NoteOption.dropLegacy false children
  | _ => children

namespace Node

mutual

/-- The tree without the legacy options of its notes and rests. -/
def withoutLegacy : Node → Node
  | .element name children position =>
    .element name (name.dropLegacy (withoutLegacyAll children)) position
  | .atom kind text position => .atom kind text position

def withoutLegacyAll : List Node → List Node
  | [] => []
  | node :: nodes => node.withoutLegacy :: withoutLegacyAll nodes

end

theorem withoutLegacyAll_eq (nodes : List Node) :
    withoutLegacyAll nodes = nodes.map withoutLegacy := by
  induction nodes with
  | nil => rfl
  | cons node nodes ih => rw [withoutLegacyAll, ih, List.map_cons]

theorem withoutLegacy_element (name : ElementName) (children : List Node) (position : Position) :
    (element name children position).withoutLegacy =
      element name (name.dropLegacy (children.map withoutLegacy)) position := by
  rw [withoutLegacy, withoutLegacyAll_eq]

@[simp] theorem kind_withoutLegacy (n : Node) : n.withoutLegacy.kind = n.kind := by
  cases n <;> simp [withoutLegacy, kind]

@[simp] theorem position_withoutLegacy (n : Node) : n.withoutLegacy.position = n.position := by
  cases n <;> simp [withoutLegacy, position]

@[simp] theorem text_withoutLegacy (n : Node) : n.withoutLegacy.text = n.text := by
  cases n <;> simp [withoutLegacy, text]

@[simp] theorem label?_withoutLegacy (n : Node) : n.withoutLegacy.label? = n.label? := by
  cases n <;> simp [withoutLegacy, label?]

@[simp] theorem isAtom_withoutLegacy (n : Node) : n.withoutLegacy.isAtom = n.isAtom := by
  simp [isAtom]

@[simp] theorem isLegacyOption_withoutLegacy (n : Node) :
    n.withoutLegacy.isLegacyOption = n.isLegacyOption := by
  simp [isLegacyOption]

theorem withoutLegacy_of_isAtom {n : Node} (h : n.isAtom = true) : n.withoutLegacy = n := by
  cases n with
  | atom kind text position => rw [withoutLegacy]
  | element name children position => cases h

theorem filter_isAtom_withoutLegacy (nodes : List Node) :
    (nodes.map withoutLegacy).filter isAtom = nodes.filter isAtom := by
  induction nodes with
  | nil => rfl
  | cons node nodes ih =>
      cases h : node.isAtom with
      | true => simp [h, ih, withoutLegacy_of_isAtom h]
      | false => simp [h, ih]

/-- The atoms of an element are still there when its children are without legacy options. -/
@[simp] theorem atoms_map_withoutLegacy (name : ElementName) (children : List Node)
    (position : Position) :
    (element name (children.map withoutLegacy) position).atoms =
      (element name children position).atoms :=
  filter_isAtom_withoutLegacy children

@[simp] theorem string?_map_withoutLegacy (name : ElementName) (children : List Node)
    (position : Position) :
    (element name (children.map withoutLegacy) position).string? =
      (element name children position).string? := by
  simp [string?, Node.children, List.find?_map, Function.comp_def]

end Node

/-! ## Reading notes and rests -/

namespace NoteOption

variable {settings : Settings} (legacySyntax isNote : Bool) (display : TupletDisplay)

theorem read_of_isLegacyOption (hsettings : settings.legacySyntax = false) {item : Node}
    (h : item.isLegacyOption = true) :
    read settings isNote display item = .error (.legacyDisabled item.text) := by
  cases item with
  | element name children position => cases h
  | atom kind text position =>
      cases kind with
      | label =>
          have hlegacy : isLegacy text = true := h
          have hvisible : text ≠ "noVisible" := by
            rintro rfl
            exact absurd hlegacy (by decide)
          simp [read, readLabel, hvisible, hlegacy, hsettings, Node.text]
      | _ => cases h

/-- An option that is no legacy option does not depend on the legacy syntax. -/
theorem read_withoutLegacy {item : Node} (h : item.isLegacyOption = false) :
    read { settings with legacySyntax } isNote display item.withoutLegacy =
      read settings isNote display item := by
  cases item with
  | atom kind text position =>
      rw [Node.withoutLegacy]
      cases kind with
      | label =>
          have hlegacy : isLegacy text = false := h
          simp [read, readLabel, hlegacy]
      | _ => rfl
  | element name children position =>
      rw [Node.withoutLegacy_element]
      cases name with
      | tie | slur | beam | tuplet =>
          simp [read, Marker.readTie, Marker.readSlur, Marker.readBeam, Marker.readTuplet,
            Marker.splitKey, ElementName.dropLegacy]
      | _ => rfl

end NoteOption

/-- A legacy option that is switched off. -/
def Node.disabledOption (item : Node) : Rejection := ⟨.legacyDisabled item.text, item.position⟩

namespace NoteReading

variable {settings : Settings} (legacySyntax isNote : Bool)

theorem readOption_of_isLegacyOption (hsettings : settings.legacySyntax = false) {item : Node}
    (h : item.isLegacyOption = true) (r : NoteReading) :
    OmitsAll [item.disabledOption] (readOption settings isNote r item) r := by
  refine ⟨r.rejections ++ [item.disabledOption], r.rejections, { r with rejections := [] }, ?_, ?_,
    ?_⟩
  · rw [readOption, NoteOption.read_of_isLegacyOption isNote r.display hsettings h]
    simp [behind, Node.disabledOption]
  · simp [behind]
  · simpa using (Merges.nil_left r.rejections).append (Merges.nil_right [item.disabledOption])

theorem readOption_withoutLegacy {item : Node} (h : item.isLegacyOption = false)
    (r : NoteReading) :
    readOption { settings with legacySyntax } isNote r item.withoutLegacy =
      readOption settings isNote r item := by
  rw [readOption, NoteOption.read_withoutLegacy legacySyntax isNote r.display h,
    item.position_withoutLegacy, readOption]

theorem omitsAll_foldl_readOption (hsettings : settings.legacySyntax = false) (options : List Node)
    {own : List Rejection} {r r' : NoteReading} (h : OmitsAll own r r') :
    OmitsAll (own ++ (options.filter Node.isLegacyOption).map Node.disabledOption)
      (options.foldl (readOption settings isNote) r)
      (((options.map Node.withoutLegacy).filter (!·.isLegacyOption)).foldl
        (readOption { settings with legacySyntax } isNote) r') := by
  have hunaware (settings : Settings) (item : Node) :
      Unaware fun r : NoteReading => readOption settings isNote r item :=
    fun found r => readOption_behind settings isNote found r item
  induction options generalizing own r r' with
  | nil => simpa using h
  | cons item options ih =>
      cases hitem : item.isLegacyOption with
      | true =>
          have hid : Unaware fun r : NoteReading => r := fun _ _ => rfl
          have hstep := h.step (hunaware settings item) hid
            (readOption_of_isLegacyOption isNote hsettings hitem)
          simpa [hitem] using ih hstep
      | false =>
          have hstep := h.step (hunaware settings item)
            (hunaware { settings with legacySyntax } item.withoutLegacy) fun r => by
              rw [readOption_withoutLegacy legacySyntax isNote hitem]
              exact .refl _
          simpa [hitem] using ih hstep

/-- Two readings have the same fault, or they are the same and the first one has rejected more. -/
inductive ReadsMore (own : List Rejection) :
    Except GrammarFault NoteReading → Except GrammarFault NoteReading → Prop where
  | error (fault : GrammarFault) : ReadsMore own (.error fault) (.error fault)
  | ok {reading reading' : NoteReading} (h : OmitsAll own reading reading') :
      ReadsMore own (.ok reading) (.ok reading')

theorem readsMore_readRest (hsettings : settings.legacySyntax = false) (display : TupletDisplay)
    (pitch : Option Pitch) (items : List Node) :
    ReadsMore (((items.drop 1).filter Node.isLegacyOption).map Node.disabledOption)
      (readRest settings display pitch items)
      (readRest { settings with legacySyntax } display pitch
        (NoteOption.dropLegacy false (items.map Node.withoutLegacy))) := by
  cases items with
  | nil => exact .error _
  | cons item options =>
      have hitems : NoteOption.dropLegacy false ((item :: options).map Node.withoutLegacy) =
          item.withoutLegacy ::
            (options.map Node.withoutLegacy).filter (!·.isLegacyOption) := rfl
      rw [hitems, readRest, readRest, item.label?_withoutLegacy]
      split
      · exact .ok (omitsAll_foldl_readOption legacySyntax pitch.isSome hsettings options (.refl _))
      · exact .error _

/-- Without its legacy options a note or rest is read in the same way. -/
theorem readsMore_read (hsettings : settings.legacySyntax = false) (display : TupletDisplay)
    (items : List Node) :
    ReadsMore (((items.drop (NoteOption.frontOf isNote)).filter Node.isLegacyOption).map
        Node.disabledOption)
      (read settings display isNote items)
      (read { settings with legacySyntax } display isNote
        (NoteOption.dropLegacy isNote (items.map Node.withoutLegacy))) := by
  cases isNote with
  | false => exact readsMore_readRest legacySyntax hsettings display none items
  | true =>
      cases items with
      | nil => exact .error _
      | cons item rest =>
          have hitems : NoteOption.dropLegacy true ((item :: rest).map Node.withoutLegacy) =
              item.withoutLegacy ::
                NoteOption.dropLegacy false (rest.map Node.withoutLegacy) := rfl
          rw [hitems, read, read, if_pos rfl, if_pos rfl, item.label?_withoutLegacy]
          split
          · exact readsMore_readRest legacySyntax hsettings display (some _) rest
          · exact .error _

end NoteReading

/-- The options of a note or rest that are reported if the legacy syntax is off: the legacy ones,
if it is accepted at all. -/
def WrittenNote.disabledOptions (settings : Settings) (w : WrittenNote) : List Rejection :=
  match NoteReading.read settings {} w.isNote w.items with
  | .ok _ =>
    ((w.items.drop (NoteOption.frontOf w.isNote)).filter Node.isLegacyOption).map
      Node.disabledOption
  | .error _ => []

theorem WrittenNote.disabledOptions_of_read {settings : Settings} {w : WrittenNote}
    {display : TupletDisplay} {reading : NoteReading}
    (h : NoteReading.read settings display w.isNote w.items = .ok reading) :
    w.disabledOptions settings =
      ((w.items.drop (NoteOption.frontOf w.isNote)).filter Node.isLegacyOption).map
        Node.disabledOption := by
  unfold disabledOptions
  split
  · rfl
  · next fault hfault =>
    rw [NoteReading.read_error display hfault] at h
    cases h

theorem WrittenNote.disabledOptions_of_error {settings : Settings} {w : WrittenNote}
    {display : TupletDisplay} {fault : GrammarFault}
    (h : NoteReading.read settings display w.isNote w.items = .error fault) :
    w.disabledOptions settings = [] := by
  rw [disabledOptions, NoteReading.read_error {} h]

/-- The problems of such options. -/
def disabledIn (settings : Settings) (written : List WrittenNote) : List Diagnostic :=
  (written.flatMap (WrittenNote.disabledOptions settings)).map Rejection.diagnostic

theorem disabledIn_flatMap {α : Type} (settings : Settings) (f : α → List WrittenNote)
    (xs : List α) :
    disabledIn settings (xs.flatMap f) = xs.flatMap fun x => disabledIn settings (f x) := by
  simp [disabledIn, List.flatMap_assoc, List.map_flatMap]

/-! ## Notes and rests that can be accepted -/

namespace Node

/-- The note that a child of a chord is. There are no rests in chords. -/
def chordNotes : Node → List WrittenNote
  | .element .note items position => [⟨true, items, position⟩]
  | _ => []

/-- The notes and rests of a child of a block of music. -/
def musicNotes : Node → List WrittenNote
  | .element .chord children _ => children.flatMap chordNotes
  | .element .note items position => [⟨true, items, position⟩]
  | .element .rest items position => [⟨false, items, position⟩]
  | _ => []

/-- Those of a child of an instrument. -/
def instrumentNotes : Node → List WrittenNote
  | .element .music children _ => children.flatMap musicNotes
  | _ => []

/-- Those of a child of a score. -/
def scoreNotes : Node → List WrittenNote
  | .element .instrument children _ => children.flatMap instrumentNotes
  | _ => []

/-- Those of all scores of a tree. -/
def documentNotes (tree : Node) : List WrittenNote :=
  tree.scoreElements.flatMap fun score => score.children.flatMap scoreNotes

end Node

/-- The notes and rests of the score that a part of a document is. -/
def DocumentPart.scoreNotes (part : DocumentPart) : List WrittenNote :=
  part.score?.toList.flatMap fun score => score.children.flatMap Node.scoreNotes

theorem Node.documentNotes_eq (tree : Node) :
    tree.documentNotes = tree.parts.flatMap DocumentPart.scoreNotes := by
  rw [documentNotes, scoreElements, List.filterMap_eq_flatMap_toList, List.flatMap_assoc]
  rfl

/-! ## Trees that have no legacy options -/

namespace NoteOption

theorem dropLegacy_dropLegacy (isNote : Bool) (items : List Node) :
    dropLegacy isNote (dropLegacy isNote items) = dropLegacy isNote items := by
  cases isNote with
  | false => cases items <;> simp [dropLegacy, frontOf]
  | true =>
      rcases items with _ | ⟨first, _ | ⟨second, options⟩⟩ <;> simp [dropLegacy, frontOf]

theorem map_dropLegacy (isNote : Bool) (items : List Node) :
    (dropLegacy isNote items).map Node.withoutLegacy =
      dropLegacy isNote (items.map Node.withoutLegacy) := by
  rw [dropLegacy, dropLegacy, List.map_append, ← List.map_take, ← List.map_drop, List.filter_map]
  simp only [Function.comp_def, Node.isLegacyOption_withoutLegacy]

theorem filter_drop_dropLegacy (isNote : Bool) (items : List Node) :
    ((dropLegacy isNote items).drop (frontOf isNote)).filter Node.isLegacyOption = [] := by
  cases isNote with
  | false => cases items <;> simp [dropLegacy, frontOf]
  | true =>
      rcases items with _ | ⟨first, _ | ⟨second, options⟩⟩ <;> simp [dropLegacy, frontOf]

end NoteOption

namespace Node

mutual

theorem withoutLegacy_withoutLegacy : ∀ n : Node, n.withoutLegacy.withoutLegacy = n.withoutLegacy
  | .atom kind text position => by simp [withoutLegacy]
  | .element name children position => by
    rw [withoutLegacy_element, withoutLegacy_element]
    have hchildren := map_withoutLegacy_withoutLegacy children
    cases name with
    | note | rest =>
        simp only [ElementName.dropLegacy, NoteOption.map_dropLegacy, hchildren,
          NoteOption.dropLegacy_dropLegacy]
    | _ => simp only [ElementName.dropLegacy, hchildren]

theorem map_withoutLegacy_withoutLegacy : ∀ nodes : List Node,
    (nodes.map withoutLegacy).map withoutLegacy = nodes.map withoutLegacy
  | [] => rfl
  | node :: nodes => by
    rw [List.map_cons, List.map_cons, withoutLegacy_withoutLegacy node,
      map_withoutLegacy_withoutLegacy nodes]

end

end Node

/-- A note or rest without legacy options. -/
def WrittenNote.IsPlain (w : WrittenNote) : Prop :=
  ∃ items, w.items = NoteOption.dropLegacy w.isNote items

theorem WrittenNote.IsPlain.disabledOptions {w : WrittenNote} (h : w.IsPlain)
    (settings : Settings) : w.disabledOptions settings = [] := by
  obtain ⟨items, hitems⟩ := h
  unfold WrittenNote.disabledOptions
  split
  · rw [hitems, NoteOption.filter_drop_dropLegacy, List.map_nil]
  · rfl

namespace Node

theorem isPlain_of_mem_flatMap {notes : Node → List WrittenNote}
    (h : ∀ n : Node, ∀ w ∈ notes n.withoutLegacy, w.IsPlain) (children : List Node) :
    ∀ w ∈ (children.map withoutLegacy).flatMap notes, w.IsPlain := by
  intro w hw
  rw [List.flatMap_map] at hw
  obtain ⟨child, -, hw⟩ := List.mem_flatMap.mp hw
  exact h child w hw

theorem isPlain_of_mem_chordNotes (n : Node) : ∀ w ∈ n.withoutLegacy.chordNotes, w.IsPlain := by
  cases n with
  | atom kind text position => rw [withoutLegacy]; exact nofun
  | element name children position =>
      rw [withoutLegacy_element]
      cases name with
      | note => exact List.forall_mem_singleton.mpr ⟨_, rfl⟩
      | _ => exact nofun

theorem isPlain_of_mem_musicNotes (n : Node) : ∀ w ∈ n.withoutLegacy.musicNotes, w.IsPlain := by
  cases n with
  | atom kind text position => rw [withoutLegacy]; exact nofun
  | element name children position =>
      rw [withoutLegacy_element]
      cases name with
      | chord => exact isPlain_of_mem_flatMap isPlain_of_mem_chordNotes children
      | note | rest => exact List.forall_mem_singleton.mpr ⟨_, rfl⟩
      | _ => exact nofun

theorem isPlain_of_mem_instrumentNotes (n : Node) :
    ∀ w ∈ n.withoutLegacy.instrumentNotes, w.IsPlain := by
  cases n with
  | atom kind text position => rw [withoutLegacy]; exact nofun
  | element name children position =>
      rw [withoutLegacy_element]
      cases name with
      | music => exact isPlain_of_mem_flatMap isPlain_of_mem_musicNotes children
      | _ => exact nofun

theorem isPlain_of_mem_scoreNotes (n : Node) : ∀ w ∈ n.withoutLegacy.scoreNotes, w.IsPlain := by
  cases n with
  | atom kind text position => rw [withoutLegacy]; exact nofun
  | element name children position =>
      rw [withoutLegacy_element]
      cases name with
      | instrument => exact isPlain_of_mem_flatMap isPlain_of_mem_instrumentNotes children
      | _ => exact nofun

theorem isPlain_of_mem_itemNotes (n : Node) :
    ∀ w ∈ (DocumentPart.item n.withoutLegacy).scoreNotes, w.IsPlain := by
  cases n with
  | atom kind text position => rw [withoutLegacy]; exact nofun
  | element name children position =>
      rw [withoutLegacy_element]
      cases name with
      | score =>
          simpa [DocumentPart.scoreNotes, DocumentPart.score?, kind, Node.children,
            ElementName.dropLegacy] using
            isPlain_of_mem_flatMap isPlain_of_mem_scoreNotes children
      | _ => simp [DocumentPart.scoreNotes, DocumentPart.score?, kind]

theorem isPlain_of_mem_childNotes (n : Node) :
    ∀ w ∈ (DocumentPart.ofChild n.withoutLegacy).flatMap DocumentPart.scoreNotes, w.IsPlain := by
  cases n with
  | atom kind text position => rw [withoutLegacy]; exact nofun
  | element name children position =>
      rw [withoutLegacy_element]
      cases name with
      | content =>
          rw [DocumentPart.ofChild, List.flatMap_map]
          exact isPlain_of_mem_flatMap isPlain_of_mem_itemNotes children
      | _ => exact nofun

theorem isPlain_of_mem_documentNotes (n : Node) :
    ∀ w ∈ n.withoutLegacy.documentNotes, w.IsPlain := by
  rw [documentNotes_eq]
  have hitem := n.isPlain_of_mem_itemNotes
  cases n with
  | atom kind text position => rw [withoutLegacy]; exact nofun
  | element name children position =>
      rw [withoutLegacy_element] at hitem ⊢
      cases name with
      | document =>
          rw [parts, documentParts, List.flatMap_assoc]
          exact isPlain_of_mem_flatMap isPlain_of_mem_childNotes children
      | _ => simpa [parts] using hitem

end Node

theorem disabledIn_of_isPlain (settings : Settings) {written : List WrittenNote}
    (h : ∀ w ∈ written, w.IsPlain) : disabledIn settings written = [] := by
  rw [disabledIn, List.map_eq_nil_iff, List.flatMap_eq_nil_iff]
  exact fun w hw => (h w hw).disabledOptions settings

end ScorePlayback
