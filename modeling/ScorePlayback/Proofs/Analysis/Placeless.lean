import ScorePlayback.Proofs.Analysis.Effects

/-! # Trees without positions

The position of a node is where problems with it are reported. What is read of a tree, and what is
heard of it, does not depend on the positions in it. -/

namespace ScorePlayback

namespace Node

mutual

/-- The tree with all nodes at one position. -/
def placeless : Node → Node
  | .element name children _ => .element name (placelessAll children) ⟨1, 1⟩
  | .atom kind text _ => .atom kind text ⟨1, 1⟩

def placelessAll : List Node → List Node
  | [] => []
  | node :: nodes => node.placeless :: placelessAll nodes

end

theorem placelessAll_eq (nodes : List Node) : placelessAll nodes = nodes.map placeless := by
  induction nodes with
  | nil => rfl
  | cons node nodes ih => rw [placelessAll, ih, List.map_cons]

theorem placeless_element (name : ElementName) (children : List Node) (position : Position) :
    (element name children position).placeless = element name (children.map placeless) ⟨1, 1⟩ := by
  rw [placeless, placelessAll_eq]

@[simp] theorem kind_placeless (n : Node) : n.placeless.kind = n.kind := by
  cases n <;> simp [placeless, kind]

@[simp] theorem text_placeless (n : Node) : n.placeless.text = n.text := by
  cases n <;> simp [placeless, text]

@[simp] theorem label?_placeless (n : Node) : n.placeless.label? = n.label? := by
  cases n with
  | atom kind text position => cases kind <;> simp [placeless, label?]
  | element name children position => simp [placeless, label?]

@[simp] theorem integer?_placeless (n : Node) : n.placeless.integer? = n.integer? := by
  cases n with
  | atom kind text position => cases kind <;> simp [placeless, integer?]
  | element name children position => simp [placeless, integer?]

@[simp] theorem count?_placeless (low high : Nat) (n : Node) :
    n.placeless.count? low high = n.count? low high := by
  simp [count?]

@[simp] theorem children_placeless (n : Node) :
    n.placeless.children = n.children.map placeless := by
  cases n with
  | atom kind text position => simp [placeless, children]
  | element name children position => rw [placeless_element]; rfl

@[simp] theorem position_placeless (n : Node) : n.placeless.position = ⟨1, 1⟩ := by
  cases n <;> simp [placeless, position]

@[simp] theorem isAtom_placeless (n : Node) : n.placeless.isAtom = n.isAtom := by simp [isAtom]

@[simp] theorem atoms_placeless (n : Node) : n.placeless.atoms = n.atoms.map placeless := by
  rw [atoms, children_placeless, List.filter_map, atoms]
  simp [Function.comp_def]

@[simp] theorem string?_placeless (n : Node) : n.placeless.string? = n.string? := by
  rw [string?, children_placeless, List.find?_map, string?]
  simp [Function.comp_def]

end Node

/-- The same rejection at the position of `Node.placeless`. -/
def Rejection.placeless (r : Rejection) : Rejection := ⟨r.fault, ⟨1, 1⟩⟩

theorem Node.misplacedIn_placeless (child : Node) (parent : ElementName) :
    child.placeless.misplacedIn parent = (child.misplacedIn parent).placeless := by
  simp [misplacedIn, Rejection.placeless]

/-! ## Reading markers and notes -/

namespace Marker

variable (n : Node)

theorem splitKey_placeless :
    splitKey n.placeless = ((splitKey n).1, (splitKey n).2.map Node.placeless) := by
  unfold splitKey
  rw [n.atoms_placeless]
  cases n.atoms with
  | nil => rfl
  | cons first rest =>
      rw [List.map_cons]
      dsimp only
      rw [first.integer?_placeless]
      split <;> rfl

theorem readTie_placeless : readTie n.placeless = readTie n := by
  unfold readTie
  rw [splitKey_placeless]
  obtain ⟨key, _ | ⟨role, _ | ⟨other, rest⟩⟩⟩ := splitKey n <;> simp

theorem readSlur_placeless : readSlur n.placeless = readSlur n := by
  unfold readSlur
  rw [splitKey_placeless]
  obtain ⟨key, _ | ⟨role, _ | ⟨other, rest⟩⟩⟩ := splitKey n <;> simp

theorem readSegment_placeless : readSegment n.placeless = readSegment n := by
  rw [readSegment, n.text_placeless, readSegment]

theorem readBeam_placeless : readBeam n.placeless = readBeam n := by
  unfold readBeam
  rw [splitKey_placeless]
  obtain ⟨key, _ | ⟨role, segments⟩⟩ := splitKey n
  · rfl
  · simp [List.mapM_map, Function.comp_def, readSegment_placeless]

theorem readTupletOption_placeless (display : TupletDisplay) :
    readTupletOption display n.placeless = readTupletOption display n := by
  rw [readTupletOption, n.text_placeless, readTupletOption]

theorem readTuplet_placeless (display : TupletDisplay) :
    readTuplet display n.placeless = readTuplet display n := by
  unfold readTuplet
  rw [splitKey_placeless]
  obtain ⟨key, _ | ⟨sign, _ | ⟨actual, _ | ⟨normal, options⟩⟩⟩⟩ := splitKey n
  · rfl
  · simp
  · simp
  · by_cases hsign : sign.text = "+"
    · simp [hsign, List.foldlM_map, readTupletOption_placeless]
    · simp [hsign]

end Marker

theorem NoteOption.read_placeless (settings : Settings) (isNote : Bool) (display : TupletDisplay)
    (item : Node) :
    read settings isNote display item.placeless = read settings isNote display item := by
  cases item with
  | atom kind text position => rw [Node.placeless]; cases kind <;> rfl
  | element name children position =>
      have htie := Marker.readTie_placeless (.element name children position)
      have hslur := Marker.readSlur_placeless (.element name children position)
      have hbeam := Marker.readBeam_placeless (.element name children position)
      have htuplet := Marker.readTuplet_placeless (.element name children position) display
      rw [Node.placeless_element] at *
      unfold read
      simp only [htie, hslur, hbeam, htuplet]

namespace NoteReading

variable (settings : Settings) (display : TupletDisplay) (isNote : Bool)

/-- A reading with what has been rejected at one position. -/
def placeless (r : NoteReading) : NoteReading :=
  { r with rejections := r.rejections.map Rejection.placeless }

theorem readOption_placeless (r : NoteReading) (item : Node) :
    readOption settings isNote r.placeless item.placeless =
      (readOption settings isNote r item).placeless := by
  have hread : NoteOption.read settings isNote r.placeless.display item.placeless =
      NoteOption.read settings isNote r.display item :=
    NoteOption.read_placeless settings isNote r.display item
  rw [readOption, hread, readOption]
  cases NoteOption.read settings isNote r.display item with
  | ok option => rfl
  | error fault => simp [placeless, Rejection.placeless]

theorem foldl_readOption_placeless (items : List Node) (r : NoteReading) :
    (items.map Node.placeless).foldl (readOption settings isNote) r.placeless =
      (items.foldl (readOption settings isNote) r).placeless := by
  induction items generalizing r with
  | nil => rfl
  | cons item rest ih =>
      rw [List.map_cons, List.foldl_cons, List.foldl_cons, readOption_placeless, ih]

theorem readRest_placeless (pitch : Option Pitch) (items : List Node) :
    readRest settings display pitch (items.map Node.placeless) =
      (readRest settings display pitch items).map placeless := by
  cases items with
  | nil => rfl
  | cons item options =>
      rw [List.map_cons, readRest, readRest, item.label?_placeless]
      cases item.label?.bind fun text => WrittenDuration.read? text.toList with
      | some duration =>
          exact congrArg Except.ok (foldl_readOption_placeless settings pitch.isSome options
            ⟨{ pitch, duration }, display, []⟩)
      | none => rfl

theorem read_placeless (items : List Node) :
    read settings display isNote (items.map Node.placeless) =
      (read settings display isNote items).map placeless := by
  cases isNote with
  | false => exact readRest_placeless settings display none items
  | true =>
      cases items with
      | nil => rfl
      | cons item rest =>
          rw [List.map_cons, read, read, if_pos rfl, if_pos rfl, item.label?_placeless]
          split
          · exact readRest_placeless settings display _ rest
          · rfl

end NoteReading

/-- The same note or rest with all its items at one position. -/
def WrittenNote.placeless (w : WrittenNote) : WrittenNote :=
  ⟨w.isNote, w.items.map Node.placeless, ⟨1, 1⟩⟩

theorem WrittenNote.spec?_placeless (settings : Settings) (w : WrittenNote) :
    w.placeless.spec? settings = w.spec? settings := by
  unfold WrittenNote.spec? WrittenNote.placeless
  dsimp only
  rw [NoteReading.read_placeless]
  cases NoteReading.read settings {} w.isNote w.items <;> rfl

/-! ## Reading other elements -/

namespace Control

variable (n : Node)

theorem readFirst_placeless {α : Type} (fault : GrammarFault) (read? : String → Option α) :
    readFirst fault read? n.placeless = readFirst fault read? n := by
  rw [readFirst, n.atoms_placeless, readFirst]
  simp [Option.bind_map]

theorem readMeter_placeless : readMeter n.placeless = readMeter n := by
  unfold readMeter
  rw [n.atoms_placeless]
  rcases n.atoms with _ | ⟨top, _ | ⟨bottom, _ | ⟨other, rest⟩⟩⟩ <;> simp

theorem readVolta_placeless : readVolta n.placeless = readVolta n := by
  unfold readVolta
  rw [n.atoms_placeless]
  rcases n.atoms with _ | ⟨ending, _ | ⟨span, _ | ⟨other, rest⟩⟩⟩ <;> simp

theorem readBarlinePart_placeless (spec : BarlineSpec) :
    readBarlinePart spec n.placeless = (readBarlinePart spec n).mapError Rejection.placeless := by
  have htimes : n.placeless.atoms.head?.bind (Node.count? 1 Numeral.largest32) =
      n.atoms.head?.bind (Node.count? 1 Numeral.largest32) := by
    simp [Option.bind_map]
  unfold readBarlinePart
  rw [n.kind_placeless, n.text_placeless, htimes, n.position_placeless]
  split
  · split <;> rfl
  · split <;> rfl
  · exact congrArg Except.error (n.misplacedIn_placeless _)

theorem foldlM_readBarlinePart_placeless (parts : List Node) (spec : BarlineSpec) :
    (parts.map Node.placeless).foldlM readBarlinePart spec =
      (parts.foldlM readBarlinePart spec).mapError Rejection.placeless := by
  induction parts generalizing spec with
  | nil => rfl
  | cons part rest ih =>
      rw [List.map_cons, List.foldlM_cons, List.foldlM_cons, readBarlinePart_placeless]
      cases readBarlinePart spec part with
      | ok spec' => exact ih spec'
      | error rejection => rfl

theorem readBarline_placeless (settings : Settings) :
    readBarline settings n.placeless =
      (readBarline settings n).mapError Rejection.placeless := by
  rw [readBarline, n.children_placeless, foldlM_readBarlinePart_placeless, readBarline]

section

variable {τ : Type} [TimeValue τ]

theorem readAmount?_placeless : (readAmount? n.placeless : Option τ) = readAmount? n := by
  cases n with
  | atom kind text position => rw [Node.placeless]; cases kind <;> rfl
  | element name children position => rw [Node.placeless_element]; rfl

theorem readMove_placeless (mark : String) (fault : GrammarFault) :
    (readMove mark fault n.placeless : Except GrammarFault (Move τ)) = readMove mark fault n := by
  unfold readMove
  rw [n.atoms_placeless]
  cases n.atoms with
  | nil => rfl
  | cons target rest => simp [readAmount?_placeless]

end

end Control

theorem Effect.ofReading_mapError {τ ε ε' α : Type} (f : ε → ε') (use : α → Effect τ)
    (reading : Except ε α) : ofReading use (reading.mapError f) = ofReading use reading := by
  cases reading <;> rfl

theorem InstrumentState.readMidi_placeless (midi : MidiInfo) (n : Node) :
    readMidi midi n.placeless = readMidi midi n := by
  unfold readMidi
  rw [n.atoms_placeless]
  rcases n.atoms with _ | ⟨program, _ | ⟨channel, _ | ⟨other, rest⟩⟩⟩ <;> simp

/-! ## What is heard -/

section

variable {τ : Type} [TimeValue τ]

namespace Node

theorem chordNotes_placeless (n : Node) :
    n.placeless.chordNotes = n.chordNotes.map WrittenNote.placeless := by
  cases n with
  | atom kind text position => rw [placeless]; rfl
  | element name children position => rw [placeless_element]; cases name <;> rfl

theorem musicNotes_placeless (n : Node) :
    n.placeless.musicNotes = n.musicNotes.map WrittenNote.placeless := by
  cases n with
  | atom kind text position => rw [placeless]; rfl
  | element name children position =>
      rw [placeless_element]
      cases name with
      | chord => simp [musicNotes, List.flatMap_map, List.map_flatMap, chordNotes_placeless]
      | _ => rfl

theorem specs_placeless (settings : Settings) (n : Node) :
    n.placeless.specs settings = n.specs settings := by
  rw [specs, musicNotes_placeless, List.filterMap_map, specs]
  simp [WrittenNote.spec?_placeless]

/-- An element has the same effects wherever it stands. -/
theorem effects_placeless (settings : Settings) (n : Node) :
    (n.placeless.effects settings : List (Effect τ)) = n.effects settings := by
  have hspecs := n.specs_placeless settings
  have hclef : Control.readClef n.placeless = Control.readClef n :=
    Control.readFirst_placeless n _ _
  have hkey : Control.readKey n.placeless = Control.readKey n := Control.readFirst_placeless n _ _
  have hmeter := Control.readMeter_placeless n
  have hbarline := Control.readBarline_placeless n settings
  have hvolta := Control.readVolta_placeless n
  have hback := Control.readMove_placeless (τ := τ) n "start" .goBackShape
  have hforward := Control.readMove_placeless (τ := τ) n "end" .goForwardShape
  cases n with
  | atom kind text position => rw [placeless]; rfl
  | element name children position =>
      rw [placeless_element] at *
      cases name with
      | note | rest | chord => exact congrArg Effect.together hspecs
      | clef => exact congrArg (Effect.ofReading _) hclef
      | key => exact congrArg (Effect.ofReading _) hkey
      | time => exact congrArg (Effect.ofReading _) hmeter
      | barline =>
          exact (congrArg (Effect.ofReading _) hbarline).trans (Effect.ofReading_mapError _ _ _)
      | volta => exact congrArg (Effect.ofReading _) hvolta
      | goBack => exact congrArg (Effect.ofReading _) hback
      | goForward => exact congrArg (Effect.ofReading _) hforward
      | _ => rfl

theorem flatMap_effects_congr (settings : Settings) {nodes nodes' : List Node}
    (h : nodes.map placeless = nodes'.map placeless) :
    (nodes.flatMap (effects settings) : List (Effect τ)) = nodes'.flatMap (effects settings) := by
  have hplaceless (nodes : List Node) :
      ((nodes.map placeless).flatMap (effects settings) : List (Effect τ)) =
        nodes.flatMap (effects settings) := by
    rw [List.flatMap_map]
    exact List.flatMap_congr fun n _ => n.effects_placeless settings
  rw [← hplaceless, h, hplaceless]

@[simp] theorem isInstrument_placeless (n : Node) : n.placeless.isInstrument = n.isInstrument := by
  simp [isInstrument]

end Node

theorem MidiInfo.after_placeless (midi : MidiInfo) (child : Node) :
    midi.after child.placeless = midi.after child := by
  have hmidi := InstrumentState.readMidi_placeless midi child
  cases child with
  | atom kind text position => rw [Node.placeless]; rfl
  | element name children position =>
      rw [Node.placeless_element] at *
      cases name with
      | midi => exact congrArg (Option.getD · midi) hmidi
      | _ => rfl

theorem musicOf_map_placeless (children : List Node) :
    musicOf (children.map Node.placeless) = (musicOf children).map Node.placeless := by
  rw [musicOf, musicOf, List.flatMap_map, List.map_flatMap]
  refine List.flatMap_congr fun child _ => ?_
  cases child with
  | atom kind text position => rw [Node.placeless]; rfl
  | element name children position =>
      rw [Node.placeless_element]
      cases name <;> rfl

theorem foldl_after_placeless (midi : MidiInfo) (children : List Node) :
    (children.map Node.placeless).foldl MidiInfo.after midi =
      children.foldl MidiInfo.after midi := by
  simp [List.foldl_map, MidiInfo.after_placeless]

/-- The same is heard of an instrument wherever it stands. -/
theorem hearInstrument_congr (settings : Settings) {children children' : List Node}
    (h : children.map Node.placeless = children'.map Node.placeless) :
    (hearInstrument settings children : HeardInstrument τ) =
      hearInstrument settings children' := by
  have hmusic : (musicOf children).map Node.placeless = (musicOf children').map Node.placeless := by
    rw [← musicOf_map_placeless, h, musicOf_map_placeless]
  rw [hearInstrument, hearInstrument, ← foldl_after_placeless, h, foldl_after_placeless,
    Node.flatMap_effects_congr settings hmusic]

end

/-! ## What is admitted -/

namespace Node

theorem exists_of_placeless_element {n : Node} {name : ElementName} {children : List Node}
    {position : Position} (h : n.placeless = (element name children position).placeless) :
    ∃ children' position', n = element name children' position' ∧
      children'.map placeless = children.map placeless := by
  rw [placeless_element] at h
  cases n with
  | atom kind text position' => rw [placeless] at h; cases h
  | element name' children' position' =>
      rw [placeless_element] at h
      obtain ⟨rfl, hchildren⟩ :
          name' = name ∧ children'.map placeless = children.map placeless := by
        simpa using h
      exact ⟨children', position', rfl, hchildren⟩

/-- What is inside a tree is inside the same tree at other positions. -/
theorem IsWithin.exists_of_placeless {n tree tree' : Node} (h : n.IsWithin tree)
    (htree : tree'.placeless = tree.placeless) :
    ∃ n' : Node, n'.IsWithin tree' ∧ n'.placeless = n.placeless := by
  induction h generalizing tree' with
  | here => exact ⟨tree', .here, htree⟩
  | @child name children position child hmem _ ih =>
      obtain ⟨children', position', rfl, hchildren⟩ := exists_of_placeless_element htree
      have hchild : child.placeless ∈ children'.map placeless :=
        hchildren ▸ List.mem_map_of_mem hmem
      obtain ⟨child', hmem', hchild⟩ := List.mem_map.mp hchild
      obtain ⟨n', hn', hplaceless⟩ := ih hchild
      exact ⟨n', .child hmem' hn', hplaceless⟩

/-- Whether notes and rests are admitted does not depend on positions. -/
theorem Admits.of_placeless {settings : Settings} {admitted : NoteReading → Prop}
    (hadmitted : ∀ r r' : NoteReading, r.placeless = r'.placeless → admitted r → admitted r')
    {tree tree' : Node} (h : tree.Admits settings admitted)
    (htree : tree.placeless = tree'.placeless) : tree'.Admits settings admitted := by
  intro isNote items position hitem display reading hread
  obtain ⟨n, hn, hplaceless⟩ := hitem.exists_of_placeless htree
  obtain ⟨items', position', rfl, hitems⟩ := exists_of_placeless_element hplaceless
  have hmap : (NoteReading.read settings display isNote items').map NoteReading.placeless =
      .ok reading.placeless := by
    rw [← NoteReading.read_placeless, hitems, NoteReading.read_placeless, hread]
    rfl
  cases hread' : NoteReading.read settings display isNote items' with
  | error fault => rw [hread'] at hmap; cases hmap
  | ok reading' =>
      rw [hread'] at hmap
      exact hadmitted _ _ (Except.ok.inj hmap) (h _ _ _ hn _ _ hread')

end Node

end ScorePlayback
