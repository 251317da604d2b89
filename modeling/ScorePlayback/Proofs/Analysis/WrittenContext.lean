import ScorePlayback.Proofs.Analysis.BeamWriters

/-! # Voices, staffs and tuplets as they are written

What the options of a note say of its voice, its staff and how its tuplets are shown. Of several
options for one of these the last one counts. -/

namespace ScorePlayback

/-! ## What is written last -/

/-- What the last element says that says anything. -/
def lastOf {α β : Type} (f : α → Option β) (xs : List α) : Option β := (xs.filterMap f).getLast?

section

variable {α β : Type} (f : α → Option β)

theorem lastOf_append (xs ys : List α) : lastOf f (xs ++ ys) = (lastOf f ys).or (lastOf f xs) := by
  rw [lastOf, List.filterMap_append, List.getLast?_append]
  rfl

theorem lastOf_singleton (x : α) : lastOf f [x] = f x := by
  cases h : f x <;> simp [lastOf, h]

theorem lastOf_concat (xs : List α) (x : α) : lastOf f (xs ++ [x]) = (f x).or (lastOf f xs) := by
  rw [lastOf_append, lastOf_singleton]

theorem lastOf_cons (x : α) (xs : List α) : lastOf f (x :: xs) = (lastOf f xs).or (f x) := by
  rw [← List.singleton_append, lastOf_append, lastOf_singleton]

end

/-! ## Options as they are written -/

namespace Node

/-- The number behind a letter that an option is. -/
def numbered? (letter : Char) (item : Node) : Option Nat :=
  item.label?.bind fun text => NoteOption.numbered? letter text.toList

/-- Which of two words the text of an atom is, if it is one of them. -/
def says? (yes no : String) (atom : Node) : Option Bool :=
  if atom.text = yes then some true else if atom.text = no then some false else none

/-- The options of the start of a tuplet: what is behind its key, its sign and its numbers. -/
def tupletOptions (item : Node) : List Node := (Marker.splitKey item).2.drop 3

/-- What the start of a tuplet says last of its bracket. -/
def bracket? (item : Node) : Option Bool := lastOf (says? "bracket" "noBracket") item.tupletOptions

/-- What it says last of its number. -/
def number? (item : Node) : Option Bool := lastOf (says? "number" "noNumber") item.tupletOptions

/-- The marker for a tuplet that an option is, if it can be read. -/
def tuplet? (item : Node) : Option Marker :=
  match item with
  | .element .tuplet .. => (Marker.readTuplet {} item).toOption
  | _ => none

def startsTuplet (item : Node) : Bool :=
  match item.tuplet? with
  | some (.tupletStart ..) => true
  | _ => false

end Node

namespace WrittenNote

/-- What is behind the pitch and the duration. -/
def options (w : WrittenNote) : List Node := w.items.drop (NoteOption.frontOf w.isNote)

def voice? (w : WrittenNote) : Option Nat := lastOf (Node.numbered? 'v') w.options

def staff? (w : WrittenNote) : Option Nat := lastOf (Node.numbered? 'p') w.options

def tupletStarts (w : WrittenNote) : List Node := w.options.filter Node.startsTuplet

end WrittenNote

/-- How tuplets are shown behind some starts of tuplets. -/
def TupletDisplay.written (starts : List Node) : TupletDisplay :=
  ⟨(lastOf Node.bracket? starts).getD true, (lastOf Node.number? starts).getD true⟩

/-- How tuplets are shown behind one more. -/
def TupletDisplay.after (display : TupletDisplay) (item : Node) : TupletDisplay :=
  ⟨item.bracket?.getD display.bracket, item.number?.getD display.number⟩

/-- A start of a tuplet inherits from the one in front of it what it does not say. -/
theorem TupletDisplay.written_concat (starts : List Node) (item : Node) :
    written (starts ++ [item]) = (written starts).after item := by
  simp only [written, after, lastOf_concat, Option.getD_or]

/-- A marker of a tuplet, where a start is shown like this. -/
def Marker.shownAs (display : TupletDisplay) : Marker → Marker
  | .tupletStart key spec =>
    .tupletStart key ⟨spec.actual, spec.normal, display.bracket, display.number⟩
  | m => m

/-- The markers for tuplets among some options, behind some starts of tuplets. Each start is shown
as is written last on it or in front of it. -/
def tupletMarkers (starts : List Node) : List Node → List Marker
  | [] => []
  | item :: options =>
    (item.tuplet?.map (Marker.shownAs (.written (starts ++ [item])))).toList ++
      tupletMarkers (starts ++ [item].filter Node.startsTuplet) options

theorem tupletMarkers_concat (starts options : List Node) (item : Node) :
    tupletMarkers starts (options ++ [item]) = tupletMarkers starts options ++
      (item.tuplet?.map (Marker.shownAs
        (.written (starts ++ options.filter Node.startsTuplet ++ [item])))).toList := by
  induction options generalizing starts with
  | nil => simp [tupletMarkers]
  | cons first rest ih =>
      rw [List.cons_append, tupletMarkers, ih, tupletMarkers,
        ← List.singleton_append (l := rest), List.filter_append]
      simp only [List.append_assoc]

/-! ### Voices and staffs -/

namespace NoteOption

def voice? : NoteOption → Option Nat
  | .voice number => some number
  | _ => none

def staff? : NoteOption → Option Nat
  | .staff number => some number
  | _ => none

theorem numbered?_of_ne {letter other : Char} {text : List Char} {number : Nat}
    (h : numbered? letter text = some number) (hne : letter ≠ other) :
    numbered? other text = none := by
  cases text with
  | nil => rfl
  | cons first rest =>
      have hfirst : first = letter := by
        by_contra hfirst
        simp [numbered?, hfirst] at h
      simp [numbered?, hfirst, hne]

/-- A label is a voice or a staff if it is a letter and a number. -/
theorem numbers_readLabel (settings : Settings) (isNote : Bool) (text : String) :
    (readLabel settings isNote text).toOption.bind voice? = numbered? 'v' text.toList ∧
      (readLabel settings isNote text).toOption.bind staff? = numbered? 'p' text.toList := by
  have hword {word : String} (hword : word ∈ ["noVisible", "l", "g+", "g-"]) :
      numbered? 'v' word.toList = none ∧ numbered? 'p' word.toList = none := by
    revert word
    decide
  by_cases hspecial : text ∈ ["noVisible", "l", "g+", "g-"]
  · rw [(hword hspecial).1, (hword hspecial).2]
    revert text
    simp only [List.forall_mem_cons, List.not_mem_nil, false_imp_iff, implies_true, and_true]
    cases hsetting : settings.legacySyntax <;> cases isNote <;>
      simp [readLabel, isLegacy, hsetting, Except.toOption, voice?, staff?]
  · simp only [List.mem_cons, List.not_mem_nil, or_false, not_or] at hspecial
    obtain ⟨hhidden, htie, henter, hleave⟩ := hspecial
    have hlegacy : isLegacy text = false := by simp [isLegacy, htie, henter, hleave]
    simp only [readLabel, hhidden, hlegacy, htie, henter, hleave, Bool.false_and, if_false,
      Bool.false_eq_true]
    cases hvoice : numbered? 'v' text.toList with
    | some number =>
        rw [numbered?_of_ne hvoice (by decide)]
        exact ⟨rfl, rfl⟩
    | none =>
        cases numbered? 'p' text.toList with
        | some number => exact ⟨rfl, rfl⟩
        | none => exact ⟨rfl, rfl⟩

theorem numbers_read (settings : Settings) (isNote : Bool) (display : TupletDisplay) (item : Node) :
    (read settings isNote display item).toOption.bind voice? = item.numbered? 'v' ∧
      (read settings isNote display item).toOption.bind staff? = item.numbered? 'p' := by
  have hmarker (reading : Except GrammarFault Marker) :
      (reading.map NoteOption.marker).toOption.bind voice? = none ∧
        (reading.map NoteOption.marker).toOption.bind staff? = none := by
    cases reading <;> exact ⟨rfl, rfl⟩
  cases item with
  | atom kind text position =>
      cases kind with
      | label => exact numbers_readLabel settings isNote text
      | _ => exact ⟨rfl, rfl⟩
  | element name children position =>
      cases name with
      | tie =>
          cases isNote with
          | true => exact hmarker _
          | false => exact ⟨rfl, rfl⟩
      | slur | beam | tuplet => exact hmarker _
      | _ => exact ⟨rfl, rfl⟩

end NoteOption

/-! ### Tuplets -/

namespace Marker

/-- An option of a tuplet changes what it is about, and nothing else. -/
theorem readTupletOption_ok {display display' : TupletDisplay} {option : Node}
    (h : readTupletOption display option = .ok display') :
    display' = ⟨(option.says? "bracket" "noBracket").getD display.bracket,
      (option.says? "number" "noNumber").getD display.number⟩ := by
  unfold readTupletOption at h
  split at h
  all_goals first
    | next hword => exact (Except.ok.inj h).symm.trans (by simp [Node.says?, hword])
    | cases h

/-- Where all options of a tuplet can be read, the last one of each kind counts. -/
theorem foldlM_readTupletOption_ok {display display' : TupletDisplay} {options : List Node}
    (h : options.foldlM readTupletOption display = .ok display') :
    display' = ⟨(lastOf (Node.says? "bracket" "noBracket") options).getD display.bracket,
      (lastOf (Node.says? "number" "noNumber") options).getD display.number⟩ := by
  induction options generalizing display with
  | nil => exact (Except.ok.inj h).symm
  | cons option rest ih =>
      rw [List.foldlM_cons] at h
      cases hfirst : readTupletOption display option with
      | error fault => rw [hfirst] at h; cases h
      | ok between =>
          rw [hfirst] at h
          rw [ih h, readTupletOption_ok hfirst]
          simp only [lastOf_cons, Option.getD_or]

/-- Tuplets around a marker change nothing about it but how it is shown. -/
theorem readTuplet_eq (display : TupletDisplay) (item : Node) :
    readTuplet display item = (readTuplet {} item).map (shownAs (display.after item)) := by
  unfold readTuplet
  split
  · rfl
  · next key sign rest hkey =>
    split
    · rfl
    · next actual normal options _ =>
      split
      · next actual normal _ _ =>
        have hoptions : item.tupletOptions = options := by
          rw [Node.tupletOptions, hkey]
          rfl
        cases hplain : options.foldlM readTupletOption ({} : TupletDisplay) with
        | error fault =>
            rw [foldlM_readTupletOption_error display hplain]
            rfl
        | ok plain =>
            cases hshown : options.foldlM readTupletOption display with
            | error fault =>
                rw [foldlM_readTupletOption_error {} hshown] at hplain
                cases hplain
            | ok shown =>
                rw [foldlM_readTupletOption_ok hshown, ← hoptions]
                rfl
      · rfl
    · rfl

theorem kind_of_readBeam {item : Node} {m : Marker} (h : readBeam item = .ok m) :
    m.kind = .beam := by
  unfold readBeam at h
  simp only [bind, Except.bind] at h
  repeat' split at h
  all_goals first
    | exact Except.ok.inj h ▸ rfl
    | cases h

theorem isTuplet_eq_false {m : Marker} (h : m.kind ≠ .tuplet) : m.isTuplet = false := by
  cases m with
  | tupletStart key spec => exact absurd rfl h
  | tupletEnd key => exact absurd rfl h
  | _ => rfl

theorem isTuplet_of_readTuplet {display : TupletDisplay} {item : Node} {m : Marker}
    (h : readTuplet display item = .ok m) : m.isTuplet = true :=
  isTuplet_of_kind (congrArg Prod.fst (address_of_readTuplet h))

end Marker

namespace NoteOption

/-- The marker for a tuplet that has been read. -/
def tuplet? (option : NoteOption) : Option Marker := option.marker?.filter Marker.isTuplet

theorem tuplet_read (settings : Settings) (isNote : Bool) (display : TupletDisplay) (item : Node) :
    (read settings isNote display item).toOption.bind tuplet? =
      item.tuplet?.map (Marker.shownAs (display.after item)) := by
  have hother {reading : Except GrammarFault Marker} {kind : RelationKind} (hkind : kind ≠ .tuplet)
      (h : ∀ m, reading = .ok m → m.kind = kind) :
      (reading.map NoteOption.marker).toOption.bind tuplet? = none := by
    cases reading with
    | error fault => rfl
    | ok m =>
        have hfalse := Marker.isTuplet_eq_false (h m rfl ▸ hkind)
        show Option.filter Marker.isTuplet (some m) = none
        simp [Option.filter, hfalse]
  cases item with
  | atom kind text position =>
      cases kind with
      | label =>
          cases hread : readLabel settings isNote text with
          | error fault => simp [read, hread, Except.toOption, Node.tuplet?]
          | ok option =>
              cases option with
              | marker m => exact absurd hread ne_marker_of_readLabel
              | _ => simp [read, hread, Except.toOption, Node.tuplet?, tuplet?, marker?]
      | _ => rfl
  | element name children position =>
      cases name with
      | tie =>
          cases isNote with
          | true => exact hother (by decide) fun m => Marker.kind_of_readTie
          | false => rfl
      | slur => exact hother (by decide) fun m => Marker.kind_of_readSlur
      | beam => exact hother (by decide) fun m => Marker.kind_of_readBeam
      | tuplet =>
          rw [read_tuplet, Node.tuplet?, Marker.readTuplet_eq]
          cases hplain : Marker.readTuplet {} (.element .tuplet children position) with
          | error fault => rfl
          | ok m =>
              have htuplet := Marker.isTuplet_of_readTuplet hplain
              cases m with
              | tupletStart key spec => rfl
              | tupletEnd key => rfl
              | _ => cases htuplet
      | _ => rfl

theorem displayAfter_eq (display : TupletDisplay) (option : NoteOption) :
    option.displayAfter display =
      match option.tuplet? with
      | some (.tupletStart _ spec) => ⟨spec.showBracket, spec.showNumber⟩
      | _ => display := by
  cases option with
  | marker m => cases m <;> rfl
  | _ => rfl

end NoteOption

/-! ## Notes and rests -/

namespace NoteReading

variable {settings : Settings} {isNote : Bool} (r : NoteReading) (item : Node)

theorem numbers_readOption : (r.readOption settings isNote item).spec.voice =
      (item.numbered? 'v').or r.spec.voice ∧
    (r.readOption settings isNote item).spec.staff = (item.numbered? 'p').or r.spec.staff := by
  obtain ⟨hvoice, hstaff⟩ := NoteOption.numbers_read settings isNote r.display item
  unfold readOption
  cases hread : NoteOption.read settings isNote r.display item with
  | error fault =>
      rw [hread] at hvoice hstaff
      exact ⟨hvoice ▸ rfl, hstaff ▸ rfl⟩
  | ok option =>
      rw [hread] at hvoice hstaff
      rw [← hvoice, ← hstaff]
      cases option <;> exact ⟨rfl, rfl⟩

theorem tuplets_readOption :
    (r.readOption settings isNote item).spec.markers.filter Marker.isTuplet =
      r.spec.markers.filter Marker.isTuplet ++
        (item.tuplet?.map (Marker.shownAs (r.display.after item))).toList := by
  have h := NoteOption.tuplet_read settings isNote r.display item
  unfold readOption
  cases hread : NoteOption.read settings isNote r.display item with
  | error fault =>
      rw [hread] at h
      rw [← h]
      exact (List.append_nil _).symm
  | ok option =>
      rw [hread] at h
      rw [← h]
      cases option with
      | marker m =>
          have hadd : (r.spec.add (.marker m)).markers = r.spec.markers ++ [m] := rfl
          rw [hadd, List.filter_append]
          cases hm : m.isTuplet <;>
            simp [hm, Except.toOption, NoteOption.tuplet?, NoteOption.marker?, Option.filter]
      | _ => exact (List.append_nil _).symm

theorem display_readOption : (r.readOption settings isNote item).display =
    if item.startsTuplet then r.display.after item else r.display := by
  have h := NoteOption.tuplet_read settings isNote r.display item
  unfold readOption Node.startsTuplet
  cases hread : NoteOption.read settings isNote r.display item with
  | error fault =>
      rw [hread] at h
      rw [Option.map_eq_none_iff.mp h.symm]
      rfl
  | ok option =>
      rw [hread, show (Except.toOption (.ok option)).bind NoteOption.tuplet? = option.tuplet? from
        rfl] at h
      dsimp only
      rw [NoteOption.displayAfter_eq, h]
      cases item.tuplet? with
      | none => rfl
      | some m => cases m <;> rfl

/-- What is known of a note behind some of its options, where some tuplets start in front of it. -/
structure IsBehind (starts options : List Node) (r : NoteReading) : Prop where
  voice : r.spec.voice = lastOf (Node.numbered? 'v') options
  staff : r.spec.staff = lastOf (Node.numbered? 'p') options
  tuplets : r.spec.markers.filter Marker.isTuplet = tupletMarkers starts options
  display : r.display = .written (starts ++ options.filter Node.startsTuplet)

variable {r item} in
theorem IsBehind.readOption {starts options : List Node} (h : r.IsBehind starts options) :
    (r.readOption settings isNote item).IsBehind starts (options ++ [item]) where
  voice := by rw [(r.numbers_readOption item).1, lastOf_concat, h.voice]
  staff := by rw [(r.numbers_readOption item).2, lastOf_concat, h.staff]
  tuplets := by
    rw [tuplets_readOption, tupletMarkers_concat, TupletDisplay.written_concat, h.tuplets,
      h.display]
  display := by
    rw [display_readOption, h.display, List.filter_append, ← List.append_assoc]
    cases hitem : item.startsTuplet with
    | true =>
        rw [List.filter_cons_of_pos hitem, List.filter_nil, TupletDisplay.written_concat,
          if_pos rfl]
    | false =>
        rw [List.filter_cons_of_neg (by simp [hitem]), List.filter_nil, List.append_nil]
        rfl

theorem isBehind_of_read {starts : List Node} {w : WrittenNote} {reading : NoteReading}
    (h : read settings (.written starts) w.isNote w.items = .ok reading) :
    reading.IsBehind starts w.options := by
  obtain ⟨pitch, duration, rfl⟩ := exists_foldl_of_read h
  show IsBehind starts w.options (w.options.foldl _ _)
  induction w.options using List.reverseRecOn with
  | nil => exact ⟨rfl, rfl, rfl, by simp⟩
  | append_singleton options item ih =>
      rw [List.foldl_concat]
      exact ih.readOption

end NoteReading

end ScorePlayback
