import ScorePlayback.Proofs.Analysis.WrittenNotes

/-! # What problems quote

A problem with the grammar may quote what is in the tree: the name of an element or of a kind of
atom, or the text of an atom. A string is quoted only where it stands for an option of a note or
rest, or for a part of a beam or tuplet. -/

namespace ScorePlayback

namespace GrammarFault

/-- What the message of a fault takes over from the tree. -/
def quoted? : GrammarFault → Option String
  | .notAllowed text _ | .legacyDisabled text | .unknownOption text | .unknownBeamRole text
  | .unknownBeamSegment text | .unknownTupletOption text | .unknownBarline text => some text
  | _ => none

/-- The faults that a string can have as well as another atom. -/
def concernsStrings : GrammarFault → Bool
  | .notAllowed _ .note | .notAllowed _ .rest | .unknownBeamRole _ | .unknownBeamSegment _
  | .unknownTupletOption _ => true
  | _ => false

/-- What a fault quotes is in the tree. -/
inductive QuotesFrom (tree : Node) : GrammarFault → Prop where
  | nothing {fault : GrammarFault} (hquoted : fault.quoted? = none) : QuotesFrom tree fault
  | kind (kind : NodeKind) (parent : ElementName) : QuotesFrom tree (.notAllowed kind.text parent)
  | atom {kind : AtomKind} {text : String} {position : Position} {fault : GrammarFault}
      (hatom : (Node.atom kind text position).IsWithin tree) (hquoted : fault.quoted? = some text)
      (hstring : kind = .string → fault.concernsStrings) : QuotesFrom tree fault

namespace QuotesFrom

theorem name (tree : Node) (name parent : ElementName) :
    QuotesFrom tree (.notAllowed name.text parent) := .kind (.element name) parent

theorem mono {n tree : Node} {fault : GrammarFault} (h : fault.QuotesFrom n)
    (hn : n.IsWithin tree) : fault.QuotesFrom tree := by
  cases h with
  | nothing hquoted => exact .nothing hquoted
  | kind kind parent => exact .kind kind parent
  | atom hatom hquoted hstring => exact .atom (hatom.trans hn) hquoted hstring

theorem of_mem_atoms {n marker : Node} {fault : GrammarFault} (h : n ∈ marker.atoms)
    (hquoted : fault.quoted? = some n.text) (hstrings : fault.concernsStrings = true) :
    fault.QuotesFrom marker := by
  obtain ⟨hmem, hatom⟩ := List.mem_filter.mp h
  cases n with
  | element name children position => cases hatom
  | atom kind text position =>
      exact .atom (Node.isWithin_of_mem_children hmem) hquoted fun _ => hstrings

end QuotesFrom

end GrammarFault

theorem exists_error_of_mapM {ε α β : Type} {f : α → Except ε β} {xs : List α} {e : ε}
    (h : xs.mapM f = .error e) : ∃ x ∈ xs, f x = .error e := by
  induction xs with
  | nil => cases h
  | cons x xs ih =>
      rw [List.mapM_cons] at h
      cases hx : f x with
      | error e' =>
          rw [hx] at h
          obtain rfl : e' = e := Except.error.inj h
          exact ⟨x, List.mem_cons_self, hx⟩
      | ok y =>
          have hxs : xs.mapM f = .error e := by
            rw [hx] at h
            cases hrest : xs.mapM f with
            | error e' => rw [hrest] at h; exact congrArg _ (Except.error.inj h)
            | ok ys => rw [hrest] at h; cases h
          obtain ⟨x', hmem, hx'⟩ := ih hxs
          exact ⟨x', List.mem_cons_of_mem _ hmem, hx'⟩

/-! ## Markers -/

namespace Marker

variable {marker : Node} {fault : GrammarFault}

theorem splitKey_subset (marker : Node) : (splitKey marker).2 ⊆ marker.atoms := by
  unfold splitKey
  split
  · exact List.nil_subset _
  · next first rest hatoms =>
    rw [hatoms]
    split
    · exact List.subset_cons_self _ _
    · exact List.Subset.refl _

theorem quoted?_of_readTie (h : readTie marker = .error fault) : fault.quoted? = none := by
  unfold readTie at h
  repeat' split at h
  all_goals first
    | exact Except.error.inj h ▸ rfl
    | cases h

theorem quoted?_of_readSlur (h : readSlur marker = .error fault) : fault.quoted? = none := by
  unfold readSlur at h
  repeat' split at h
  all_goals first
    | exact Except.error.inj h ▸ rfl
    | cases h

theorem eq_of_readBeamRole {role : String} (h : readBeamRole role = .error fault) :
    fault = .unknownBeamRole role := by
  unfold readBeamRole at h
  repeat' split at h
  all_goals first
    | exact (Except.error.inj h).symm
    | cases h

theorem eq_of_readSegment {atom : Node} (h : readSegment atom = .error fault) :
    fault = .unknownBeamSegment atom.text := by
  unfold readSegment at h
  split at h
  · cases h
  · exact (Except.error.inj h).symm

theorem eq_of_readTupletOption {display : TupletDisplay} {atom : Node}
    (h : readTupletOption display atom = .error fault) :
    fault = .unknownTupletOption atom.text := by
  unfold readTupletOption at h
  repeat' split at h
  all_goals first
    | exact (Except.error.inj h).symm
    | cases h

theorem quotesFrom_of_readBeam (h : readBeam marker = .error fault) : fault.QuotesFrom marker := by
  have hatoms := splitKey_subset marker
  unfold readBeam at h
  split at h
  · exact .nothing (Except.error.inj h ▸ rfl)
  · next key role segments hsplit =>
    rw [hsplit] at hatoms
    simp only [bind, Except.bind] at h
    split at h
    · next fault' hrole =>
      obtain rfl := Except.error.inj h
      obtain rfl := eq_of_readBeamRole hrole
      exact .of_mem_atoms (hatoms List.mem_cons_self) rfl rfl
    · split at h
      · next fault' hsegments =>
        obtain rfl := Except.error.inj h
        obtain ⟨atom, hmem, hatom⟩ := exists_error_of_mapM hsegments
        obtain rfl := eq_of_readSegment hatom
        exact .of_mem_atoms (hatoms (List.mem_cons_of_mem _ hmem)) rfl rfl
      · cases h

theorem quotesFrom_of_readTuplet {display : TupletDisplay}
    (h : readTuplet display marker = .error fault) : fault.QuotesFrom marker := by
  have hatoms := splitKey_subset marker
  unfold readTuplet at h
  split at h
  · exact .nothing (Except.error.inj h ▸ rfl)
  · next key sign rest hsplit =>
    rw [hsplit] at hatoms
    split at h
    · cases h
    · next actual normal options _ =>
      split at h
      · simp only [bind, Except.bind] at h
        split at h
        · next fault' hoptions =>
          obtain rfl := Except.error.inj h
          obtain ⟨atom, hmem, display', hatom⟩ := exists_error_of_foldlM hoptions
          obtain rfl := eq_of_readTupletOption hatom
          have hmem' : atom ∈ sign :: actual :: normal :: options := by simp [hmem]
          exact .of_mem_atoms (hatoms hmem') rfl rfl
        · cases h
      · exact .nothing (Except.error.inj h ▸ rfl)
    · exact .nothing (Except.error.inj h ▸ rfl)

end Marker

/-! ## Notes and rests -/

section

variable {settings : Settings} {display : TupletDisplay} {isNote : Bool} {fault : GrammarFault}

theorem NoteOption.quoted?_of_readLabel {text : String}
    (h : readLabel settings isNote text = .error fault) :
    fault.quoted? = none ∨ fault.quoted? = some text := by
  unfold readLabel at h
  repeat' split at h
  all_goals first
    | exact .inl (Except.error.inj h ▸ rfl)
    | exact .inr (Except.error.inj h ▸ rfl)
    | cases h

theorem NoteOption.quotesFrom_of_read {item : Node}
    (h : read settings isNote display item = .error fault) : fault.QuotesFrom item := by
  have hmap {reading : Except GrammarFault Marker}
      (h : reading.map NoteOption.marker = .error fault) : reading = .error fault := by
    cases reading with
    | error fault' => exact congrArg _ (Except.error.inj h)
    | ok m => cases h
  cases item with
  | atom kind text position =>
      cases kind with
      | label =>
          rcases quoted?_of_readLabel h with hquoted | hquoted
          · exact .nothing hquoted
          · exact .atom .here hquoted nofun
      | number | string =>
          obtain rfl := Except.error.inj h
          refine .atom .here rfl fun _ => ?_
          cases isNote <;> rfl
  | element name children position =>
      cases name with
      | tie =>
          simp only [read] at h
          split at h
          · exact .nothing (Marker.quoted?_of_readTie (hmap h))
          · obtain rfl := Except.error.inj h
            exact .name _ .tie .rest
      | slur => exact .nothing (Marker.quoted?_of_readSlur (hmap h))
      | beam => exact Marker.quotesFrom_of_readBeam (hmap h)
      | tuplet => exact Marker.quotesFrom_of_readTuplet (hmap h)
      | _ =>
          obtain rfl := Except.error.inj h
          exact .name _ _ _

namespace NoteReading

variable {items : List Node}

theorem quotesFrom_of_read {tree : Node} (hitems : ∀ item ∈ items, item.IsWithin tree)
    {reading : NoteReading} (h : read settings display isNote items = .ok reading) :
    ∀ r ∈ reading.rejections, r.fault.QuotesFrom tree := by
  obtain ⟨front, options, pitch, duration, rfl, -, -, rfl⟩ := exists_options_of_read h
  refine List.foldlRecOn (motive := fun reading : NoteReading =>
    ∀ r ∈ reading.rejections, r.fault.QuotesFrom tree) options _ nofun fun reading hr item hitem => ?_
  unfold readOption
  split
  · exact hr
  · next fault hfault =>
    have hwithin := hitems item (List.mem_append_right _ hitem)
    refine List.forall_mem_append.mpr ⟨hr, List.forall_mem_singleton.mpr ?_⟩
    exact (NoteOption.quotesFrom_of_read hfault).mono hwithin

theorem quoted?_of_readRest {pitch : Option Pitch}
    (h : readRest settings display pitch items = .error fault) : fault.quoted? = none := by
  unfold readRest at h
  repeat' split at h
  all_goals first
    | exact Except.error.inj h ▸ rfl
    | cases h

theorem quoted?_of_read (h : read settings display isNote items = .error fault) :
    fault.quoted? = none := by
  unfold read at h
  split at h
  · split at h
    · exact Except.error.inj h ▸ rfl
    · split at h
      · exact quoted?_of_readRest h
      · exact Except.error.inj h ▸ rfl
  · exact quoted?_of_readRest h

end NoteReading

end

/-! ## Other elements of music -/

namespace Control

variable {node : Node} {fault fault' : GrammarFault}

theorem eq_of_readFirst {α : Type} {read? : String → Option α}
    (h : readFirst fault read? node = .error fault') : fault' = fault := by
  unfold readFirst at h
  split at h
  · cases h
  · exact (Except.error.inj h).symm

theorem eq_of_readMeter (h : readMeter node = .error fault) : fault = .meterShape := by
  unfold readMeter at h
  repeat' split at h
  all_goals first
    | exact (Except.error.inj h).symm
    | cases h

theorem eq_of_readVolta (h : readVolta node = .error fault) : fault = .voltaShape := by
  unfold readVolta at h
  repeat' split at h
  all_goals first
    | exact (Except.error.inj h).symm
    | cases h

theorem eq_of_readMove {τ : Type} [TimeValue τ] {mark : String}
    (h : (readMove mark fault node : Except GrammarFault (Move τ)) = .error fault') :
    fault' = fault := by
  unfold readMove at h
  repeat' split at h
  all_goals first
    | exact (Except.error.inj h).symm
    | cases h

theorem quotesFrom_of_readBarlinePart {spec : BarlineSpec} {part : Node} {r : Rejection}
    (h : readBarlinePart spec part = .error r) : r.fault.QuotesFrom part := by
  unfold readBarlinePart at h
  split at h
  · next hkind =>
    split at h
    · cases h
    · obtain rfl := Except.error.inj h
      cases part with
      | element name children position => cases hkind
      | atom kind text position =>
          obtain rfl : kind = .label := NodeKind.atom.inj hkind
          exact .atom .here rfl nofun
  · split at h
    · cases h
    · exact .nothing (Except.error.inj h ▸ rfl)
  · exact Except.error.inj h ▸ .kind part.kind .barline

theorem quotesFrom_of_readBarline {settings : Settings} {r : Rejection}
    (h : readBarline settings node = .error r) : r.fault.QuotesFrom node := by
  obtain ⟨part, hmem, spec, hpart⟩ := exists_error_of_foldlM h
  exact (quotesFrom_of_readBarlinePart hpart).mono (Node.isWithin_of_mem_children hmem)

end Control

/-! ## Links -/

/-- A problem that can be found in a tree. -/
inductive Diagnostic.IsFoundIn (tree : Node) : Diagnostic → Prop where
  | relation {d : Diagnostic} (h : d.IsOfRelation) : IsFoundIn tree d
  | grammar {fault : GrammarFault} (h : fault.QuotesFrom tree) (position : Position) :
      IsFoundIn tree (fault.diagnostic position)

theorem Diagnostic.isFoundIn_misplacedIn (tree child : Node) (parent : ElementName) :
    (child.misplacedIn parent).diagnostic.IsFoundIn tree :=
  .grammar (.kind child.kind parent) child.position

variable {τ : Type}

namespace Linking

/-- All problems that have been reported can be found in the tree. -/
def FoundIn (tree : Node) (l : Linking τ) : Prop := ∀ d ∈ l.diagnostics, d.IsFoundIn tree

namespace FoundIn

variable {tree : Node} {l l' : Linking τ}

theorem reject (h : l.FoundIn tree) {rejections : List Rejection}
    (hr : ∀ r ∈ rejections, r.fault.QuotesFrom tree) : (l.reject rejections).FoundIn tree :=
  List.forall_mem_append.mpr ⟨h, List.forall_mem_map.mpr fun r hmem => .grammar (hr r hmem) _⟩

theorem rejectOne (h : l.FoundIn tree) {r : Rejection} (hr : r.fault.QuotesFrom tree) :
    (l.reject [r]).FoundIn tree := h.reject (List.forall_mem_singleton.mpr hr)

theorem misplaced (h : l.FoundIn tree) (child : Node) (parent : ElementName) :
    (l.reject [child.misplacedIn parent]).FoundIn tree := h.rejectOne (.kind child.kind parent)

theorem reportsRelations (h : l.FoundIn tree) (hl : l.ReportsRelations l') : l'.FoundIn tree := by
  obtain ⟨found, heq, hfound⟩ := hl
  rw [FoundIn, heq]
  exact List.forall_mem_append.mpr ⟨h, fun d hd => .relation (hfound d hd)⟩

end FoundIn

end Linking

/-! ## Music -/

variable [TimeValue τ] (settings : Settings) {tree : Node}

namespace Passage

variable {s : Passage τ}

theorem foundIn_addNote (h : s.linking.FoundIn tree) (isNote : Bool) {items : List Node}
    (hitems : ∀ item ∈ items, item.IsWithin tree) (position : Position) (inChord : Bool) :
    (s.addNote settings isNote items position inChord).1.linking.FoundIn tree := by
  unfold addNote
  split
  · next reading hreading =>
    have hrejected := h.reject (NoteReading.quotesFrom_of_read hitems hreading)
    exact hrejected.reportsRelations
      (s.reportsRelations_placeNote settings reading position inChord)
  · next fault hfault => exact h.rejectOne (.nothing (NoteReading.quoted?_of_read hfault))

theorem foundIn_addSingle (h : s.linking.FoundIn tree) (isNote : Bool) {items : List Node}
    (hitems : ∀ item ∈ items, item.IsWithin tree) (position : Position) :
    (s.addSingle settings isNote items position).linking.FoundIn tree := by
  rw [linking_addSingle]
  exact foundIn_addNote settings h isNote hitems position false

theorem foundIn_addChordNote (h : s.linking.FoundIn tree) (first : Option τ) {child : Node}
    (hchild : child.IsWithin tree) :
    (addChordNote settings (s, first) child).1.linking.FoundIn tree := by
  unfold addChordNote
  dsimp only
  split
  · exact foundIn_addNote settings h true hchild.children _ first.isSome
  · exact h.misplaced _ .chord

theorem foundIn_addChord (h : s.linking.FoundIn tree) {children : List Node}
    (hchildren : ∀ child ∈ children, child.IsWithin tree) (position : Position) :
    (s.addChord settings children position).linking.FoundIn tree := by
  have hfold := List.foldlRecOn (motive := fun state : Passage τ × Option τ =>
    state.1.linking.FoundIn tree) children (addChordNote settings) (b := (s, none)) h
      fun state hs child hmem => foundIn_addChordNote settings hs state.2 (hchildren child hmem)
  rw [linking_addChord]
  split
  · exact hfold
  · exact hfold.rejectOne (.nothing rfl)

omit [TimeValue τ] in
theorem foundIn_accept {α : Type} (h : s.linking.FoundIn tree) (position : Position)
    {reading : Except GrammarFault α} {use : α → Passage τ}
    (huse : ∀ value, (use value).linking = s.linking)
    (hreading : ∀ fault, reading = .error fault → fault.quoted? = none) :
    (s.accept position reading use).linking.FoundIn tree := by
  cases reading with
  | ok value =>
      show (use value).linking.FoundIn tree
      rw [huse]
      exact h
  | error fault => exact h.rejectOne (.nothing (hreading fault rfl))

theorem foundIn_read (h : s.linking.FoundIn tree) {child : Node} (hchild : child.IsWithin tree) :
    (read settings s child).linking.FoundIn tree := by
  cases child with
  | atom kind text position => exact h.misplaced _ .music
  | element name children position =>
      cases name with
      | note => exact foundIn_addSingle settings h true hchild.children position
      | rest => exact foundIn_addSingle settings h false hchild.children position
      | chord => exact foundIn_addChord settings h hchild.children position
      | clef | key =>
          exact foundIn_accept h position (fun _ => rfl) fun _ hread =>
            Control.eq_of_readFirst hread ▸ rfl
      | time =>
          exact foundIn_accept h position (fun _ => rfl) fun _ hread =>
            Control.eq_of_readMeter hread ▸ rfl
      | volta =>
          exact foundIn_accept h position (fun _ => rfl) fun _ hread =>
            Control.eq_of_readVolta hread ▸ rfl
      | goBack | goForward =>
          refine foundIn_accept h position (fun move => ?_) fun _ hread =>
            Control.eq_of_readMove hread ▸ rfl
          cases move <;> rfl
      | barline =>
          unfold read
          dsimp only
          split
          · exact h
          · next r hr => exact h.rejectOne ((Control.quotesFrom_of_readBarline hr).mono hchild)
      | _ => exact h.misplaced _ .music

end Passage

/-! ## From instruments to documents -/

theorem InstrumentState.foundIn_read {s : InstrumentState τ} (h : s.linking.FoundIn tree)
    {child : Node} (hchild : child.IsWithin tree) :
    (read settings s child).linking.FoundIn tree := by
  cases child with
  | atom kind text position => exact h.misplaced _ .instrument
  | element name children position =>
      cases name with
      | instrumentName | midi | staves =>
          unfold read
          dsimp only
          split
          · exact h
          · exact h.rejectOne (.nothing rfl)
      | music =>
          exact List.foldlRecOn (motive := fun s : Passage τ => s.linking.FoundIn tree) children _
            h fun _ hs child hmem => Passage.foundIn_read settings hs (hchild.children child hmem)
      | _ => exact h.misplaced _ .instrument

theorem ScoreState.foundIn_read {s : ScoreState τ} (h : s.linking.FoundIn tree)
    {child : Node} (hchild : child.IsWithin tree) :
    (read settings s child).linking.FoundIn tree := by
  cases child with
  | atom kind text position => exact h.misplaced _ .score
  | element name children position =>
      cases name with
      | version | option | title =>
          unfold read
          dsimp only
          split
          · exact h
          · exact h.rejectOne (.nothing rfl)
      | instrument =>
          exact List.foldlRecOn (motive := fun s : InstrumentState τ => s.linking.FoundIn tree)
            children (InstrumentState.read settings) (b := .start settings s.linking) h
            fun _ hs child hmem =>
              InstrumentState.foundIn_read settings hs (hchild.children child hmem)
      | _ => exact h.misplaced _ .score

theorem isFoundIn_analyseScore {children : List Node}
    (hchildren : ∀ child ∈ children, child.IsWithin tree) :
    ∀ d ∈ (analyseScore settings children : ScoreAnalysis τ).diagnostics, d.IsFoundIn tree := by
  have hread := List.foldlRecOn (motive := fun s : ScoreState τ => s.linking.FoundIn tree)
    children (ScoreState.read settings) (b := {}) nofun
    fun _ hs child hmem => ScoreState.foundIn_read settings hs (hchildren child hmem)
  exact hread.reportsRelations (.finish (.refl _))

namespace Analysis

/-- All problems that have been reported can be found in the tree. -/
def FoundIn (tree : Node) (a : Analysis τ) : Prop := ∀ d ∈ a.diagnostics, d.IsFoundIn tree

variable {a : Analysis τ}

omit [TimeValue τ] in
theorem FoundIn.report (h : a.FoundIn tree) {d : Diagnostic} (hd : d.IsFoundIn tree) :
    (a.report [d]).FoundIn tree :=
  List.forall_mem_append.mpr ⟨h, List.forall_mem_singleton.mpr hd⟩

omit [TimeValue τ] in
theorem FoundIn.addTitle (h : a.FoundIn tree) (child : Node) : (a.addTitle child).FoundIn tree := by
  unfold Analysis.addTitle
  split
  · exact h.report (.grammar (.nothing rfl) _)
  · split
    · exact h
    · exact h.report (.grammar (.nothing rfl) _)

theorem foundIn_addScore (h : a.FoundIn tree) {children : List Node}
    (hchildren : ∀ child ∈ children, child.IsWithin tree) :
    (a.addScore (analyseScore settings children)).FoundIn tree :=
  List.forall_mem_append.mpr ⟨h, isFoundIn_analyseScore settings hchildren⟩

theorem foundIn_readItem (h : a.FoundIn tree) {child : Node} (hchild : child.IsWithin tree) :
    (readItem settings a child).FoundIn tree := by
  unfold readItem
  split
  · exact foundIn_addScore settings h hchild.children
  · exact h
  · exact h.addTitle _
  · exact h.report (Diagnostic.isFoundIn_misplacedIn tree _ .content)

theorem foundIn_read (h : a.FoundIn tree) {child : Node} (hchild : child.IsWithin tree) :
    (read settings a child).FoundIn tree := by
  unfold read
  split
  · split
    · exact h
    · exact h.report (.grammar (.nothing rfl) _)
  · exact List.foldlRecOn (motive := FoundIn tree) _ (readItem settings) (b := a) h
      fun _ ha item hmem => foundIn_readItem settings ha (hchild.children item hmem)
  · exact h.report (Diagnostic.isFoundIn_misplacedIn tree _ .document)

end Analysis

/-- A document has only problems that can be found in its tree. -/
theorem isFoundIn_of_analyse {analysis : Analysis τ} (h : analyse settings tree = .ok analysis) :
    ∀ d ∈ analysis.diagnostics, d.IsFoundIn tree := by
  have hempty : (Analysis.empty : Analysis τ).FoundIn tree := nofun
  unfold analyse analyse? at h
  split at h
  · next analysis' ha =>
    obtain rfl := Except.ok.inj h
    split at ha
    · next children position =>
      obtain rfl := Option.some.inj ha
      exact List.foldlRecOn (motive := Analysis.FoundIn _) children (Analysis.read settings)
        (b := .empty) hempty fun _ ha child hmem =>
          Analysis.foundIn_read settings ha (.child hmem .here)
    · next children position =>
      obtain rfl := Option.some.inj ha
      exact Analysis.foundIn_addScore settings hempty fun child hmem => .child hmem .here
    · cases ha
  · cases h

end ScorePlayback
