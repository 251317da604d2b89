import ScorePlayback.Proofs.Analysis.Placeless
import ScorePlayback.Proofs.Analysis.PlainMusic
import ScorePlayback.Proofs.Time.Doubles

/-! # The order in which voices are written

In a measure of two voices one of them is written first, then the cursor goes back to the start of
the measure, and the other voice follows. If nothing but time and voice joins the notes, the same
is played when the voices are written in the other order: where they meet, the voice decides. -/

namespace ScorePlayback

variable {τ : Type} [TimeValue τ]

open TimeValue (NotLater)
open Effect (together ofReading)

/-! ## What is heard of one voice -/

/-- Notes and rests one behind the other. -/
def melody (specs : List NoteSpec) : List (Effect τ) := specs.flatMap fun spec => together [spec]

/-- The times at which the notes and rests of a melody end. -/
def melodyEnds (time : τ) : List NoteSpec → List τ
  | [] => []
  | spec :: rest =>
    let behind := time + spec.plainDuration
    behind :: melodyEnds behind rest

namespace Hearing

theorem melody_cons (spec : NoteSpec) (rest : List NoteSpec) :
    (melody (spec :: rest) : List (Effect τ)) =
      .note spec :: .move (·.advance spec.plainDuration) :: melody rest := rfl

/-- A melody depends on where it starts, not on what has been reached before. -/
theorem hear_melody_congr {h h' : Hearing τ} (htime : h.cursor.time = h'.cursor.time)
    (hmeasure : h.cursor.measure = h'.cursor.measure) (hkey : h.key = h'.key)
    (specs : List NoteSpec) : h.hear (melody specs) = h'.hear (melody specs) := by
  induction specs generalizing h h' with
  | nil => rfl
  | cons spec rest ih =>
      have hnote : h.note spec = h'.note spec := by rw [note, note, htime, hmeasure, hkey]
      have hrest := @ih (h.after (.move (·.advance spec.plainDuration)))
        (h'.after (.move (·.advance spec.plainDuration))) (congrArg (· + _) htime) hmeasure hkey
      simp only [melody_cons, hear_cons, objects, after] at hrest ⊢
      rw [hnote, hrest]

theorem voice_of_mem_hear_melody {voice : Nat} {specs : List NoteSpec}
    (hspecs : ∀ spec ∈ specs, spec.voice = some voice) {h : Hearing τ} {object : HeardObject τ}
    (hobject : object ∈ h.hear (melody specs)) : object.voice = voice := by
  induction specs generalizing h with
  | nil => cases hobject
  | cons spec rest ih =>
      obtain ⟨hspec, hrest⟩ := List.forall_mem_cons.mp hspecs
      rw [melody_cons, hear_cons, hear_cons] at hobject
      rcases List.mem_cons.mp hobject with rfl | hobject
      · rw [note, hspec, Option.getD_some]
      · exact ih hrest hobject

/-- A melody moves the cursor on and reaches the ends of its notes. -/
theorem exists_run_melody (h : Hearing τ) (specs : List NoteSpec) :
    ∃ time,
      let reached := (melodyEnds h.cursor.time specs).foldl TimeValue.later h.cursor.reached
      h.run (melody specs) = { h with cursor := { h.cursor with time, reached } } := by
  induction specs generalizing h with
  | nil => exact ⟨h.cursor.time, rfl⟩
  | cons spec rest ih => exact ih (h.after (.move (·.advance spec.plainDuration)))

/-! ## Two voices -/

/-- The cursor goes back to the start of the measure. -/
def toStart : Effect τ := .move (·.goBack .toMark)

/-- Where a second melody starts behind a first one. -/
def backFrom (h : Hearing τ) (first : List NoteSpec) : Hearing τ :=
  (h.run (melody first)).after toStart

/-- At the start of a measure both melodies start together. -/
theorem backFrom_eq [ComparableTime τ] {h : Hearing τ}
    (hstart : h.cursor.time = h.cursor.measureStart) (first : List NoteSpec) :
    let reached := (melodyEnds h.cursor.time first).foldl TimeValue.later h.cursor.reached
    h.backFrom first = { h with cursor := { h.cursor with reached } } := by
  obtain ⟨time, hrun⟩ := h.exists_run_melody first
  have hback : TimeValue.later h.cursor.measureStart h.cursor.measureStart = h.cursor.time := by
    rw [ComparableTime.later_self, hstart]
  simp only [backFrom, hrun, toStart, after, Cursor.goBack, Cursor.backTo, hback]

theorem hear_two_melodies [ComparableTime τ] {h : Hearing τ}
    (hstart : h.cursor.time = h.cursor.measureStart) (first second : List NoteSpec)
    (behind : List (Effect τ)) :
    h.hear (melody first ++ toStart :: (melody second ++ behind)) =
      h.hear (melody first) ++ (h.hear (melody second) ++
        ((h.backFrom first).run (melody second)).hear behind) := by
  have hback := backFrom_eq hstart first
  have htime : (h.backFrom first).cursor.time = h.cursor.time := by rw [hback]
  have hmeasure : (h.backFrom first).cursor.measure = h.cursor.measure := by rw [hback]
  have hkey : (h.backFrom first).key = h.key := by rw [hback]
  have hsecond : (h.backFrom first).hear (melody second) = h.hear (melody second) :=
    hear_melody_congr htime hmeasure hkey second
  rw [hear_append, hear_cons, toStart, objects, List.nil_append, ← toStart, ← backFrom, hear_append,
    hsecond]

/-- Two melodies reach what the longer one reaches. -/
theorem exists_run_two_melodies [ComparableTime τ] {h : Hearing τ}
    (hstart : h.cursor.time = h.cursor.measureStart) (first second : List NoteSpec) :
    ∃ time,
      let reached := (melodyEnds h.cursor.time first ++ melodyEnds h.cursor.time second).foldl
        TimeValue.later h.cursor.reached
      (h.backFrom first).run (melody second) =
        { h with cursor := { h.cursor with time, reached } } := by
  obtain ⟨time, hrun⟩ := (h.backFrom first).exists_run_melody second
  refine ⟨time, ?_⟩
  rw [hrun, backFrom_eq hstart, List.foldl_append]

/-- What is behind a barline depends on where the barline stands. -/
theorem hear_congr_of_barline {h h' : Hearing τ} (hreached : h.cursor.reached = h'.cursor.reached)
    (hmeasure : h.cursor.measure = h'.cursor.measure) (hkey : h.key = h'.key)
    {behind : List (Effect τ)} (hbehind : ∀ effect ∈ behind.head?, ∃ b, effect = .barline b) :
    h.hear behind = h'.hear behind := by
  cases behind with
  | nil => rfl
  | cons effect rest =>
      obtain ⟨b, rfl⟩ := hbehind effect rfl
      have hafter : h.after (.barline b) = h'.after (.barline b) := by
        rw [after, after, Cursor.nextMeasure, Cursor.nextMeasure, hreached, hmeasure, hkey]
      rw [hear_cons, hear_cons, hafter, objects, objects, mark, mark, hreached, hmeasure]

/-- What follows two melodies does not depend on which one is written first. -/
theorem exists_hear_melodies [ComparableTime τ] {h : Hearing τ}
    (hstart : h.cursor.time = h.cursor.measureStart)
    (hreached : NotLater TimeValue.zero h.cursor.reached) (first second : List NoteSpec)
    {behind : List (Effect τ)}
    (hbehind : ∀ effect ∈ behind.head?, ∃ b, effect = .barline b) :
    ∃ tail,
      h.hear (melody first ++ toStart :: (melody second ++ behind)) =
          h.hear (melody first) ++ (h.hear (melody second) ++ tail) ∧
        h.hear (melody second ++ toStart :: (melody first ++ behind)) =
          h.hear (melody second) ++ (h.hear (melody first) ++ tail) := by
  obtain ⟨time, hrun⟩ := exists_run_two_melodies hstart first second
  obtain ⟨time', hrun'⟩ := exists_run_two_melodies hstart second first
  have hlonger : ((h.backFrom second).run (melody first)).cursor.reached =
      ((h.backFrom first).run (melody second)).cursor.reached := by
    rw [hrun, hrun']
    exact foldl_later_perm List.perm_append_comm hreached
  refine ⟨_, hear_two_melodies hstart first second behind, ?_⟩
  rw [hear_two_melodies hstart second first behind, hear_congr_of_barline hlonger ?_ ?_ hbehind]
  · rw [hrun, hrun']
  · rw [hrun, hrun']

end Hearing

/-! ## Measures of two voices -/

/-- Some elements are notes and rests of one voice. -/
def IsVoice (settings : Settings) (voice : Nat) (elements : List Node) : Prop :=
  ∀ n ∈ elements, (n.kind = .element .note ∨ n.kind = .element .rest) ∧
    n.Admits settings fun reading => reading.spec.voice = some voice

namespace Node

/-- A move back to the start of the measure. -/
def ReturnsToStart (n : Node) : Prop :=
  n.kind = .element .goBack ∧ ∃ target ∈ n.atoms.head?, target.text = "start"

/-- A barline that is accepted. -/
def ClosesMeasure (settings : Settings) (n : Node) : Prop :=
  n.kind = .element .barline ∧ ∃ b, Control.readBarline settings n = .ok b

end Node

/-- A measure in which one voice is written, then a move back to its start, and then another
voice. -/
structure TwoVoices (settings : Settings) where
  first : List Node
  back : Node
  second : List Node
  firstVoice : Nat
  secondVoice : Nat
  isVoice_first : IsVoice settings firstVoice first
  isVoice_second : IsVoice settings secondVoice second
  voices_ne : firstVoice ≠ secondVoice
  returns : back.ReturnsToStart

namespace TwoVoices

variable {settings : Settings} (m : TwoVoices settings)

def elements : List Node := m.first ++ m.back :: m.second

/-- The same measure with its second voice in front. -/
def exchanged : TwoVoices settings where
  first := m.second
  back := m.back
  second := m.first
  firstVoice := m.secondVoice
  secondVoice := m.firstVoice
  isVoice_first := m.isVoice_second
  isVoice_second := m.isVoice_first
  voices_ne := m.voices_ne.symm
  returns := m.returns

theorem elements_exchanged_perm : m.exchanged.elements.Perm m.elements :=
  List.perm_append_comm.trans (List.perm_middle.symm.trans (.refl _))

end TwoVoices

/-! ### Effects -/

namespace Node

variable {settings : Settings} {n : Node}

theorem exists_of_kind {name : ElementName} (h : n.kind = .element name) :
    ∃ children position, n = element name children position := by
  cases n with
  | atom kind text position => cases h
  | element name' children position =>
      obtain rfl : name' = name := by simpa [kind] using h
      exact ⟨children, position, rfl⟩

/-- A note or rest has the effects of a melody, if it is accepted. -/
theorem effects_eq_melody (h : n.kind = .element .note ∨ n.kind = .element .rest) :
    (n.effects settings : List (Effect τ)) = melody (n.specs settings) := by
  have hmelody (spec? : Option NoteSpec) :
      (together spec?.toList : List (Effect τ)) = melody spec?.toList := by
    cases spec? <;> rfl
  rcases h with h | h
  · obtain ⟨items, position, rfl⟩ := exists_of_kind h
    rw [effects, specs_note, hmelody]
  · obtain ⟨items, position, rfl⟩ := exists_of_kind h
    rw [effects, specs_rest, hmelody]

/-- What is read of a note or rest is admitted. -/
theorem exists_reading_of_mem_specs (h : n.kind = .element .note ∨ n.kind = .element .rest)
    {admitted : NoteReading → Prop} (ha : n.Admits settings admitted) {spec : NoteSpec}
    (hspec : spec ∈ n.specs settings) : ∃ reading, admitted reading ∧ reading.spec = spec := by
  have hread (isNote : Bool) {items : List Node} {position : Position}
      (ha : (element (NoteOption.elementOf isNote) items position).Admits settings admitted)
      (hspec : spec ∈ (WrittenNote.spec? settings ⟨isNote, items, position⟩).toList) :
      ∃ reading, admitted reading ∧ reading.spec = spec := by
    rw [Option.mem_toList, WrittenNote.spec?] at hspec
    split at hspec
    · next reading hreading =>
      exact ⟨reading, ha _ _ _ .here _ _ hreading, Option.some.inj hspec⟩
    · cases hspec
  rcases h with h | h
  · obtain ⟨items, position, rfl⟩ := exists_of_kind h
    exact hread true ha (specs_note settings items position ▸ hspec)
  · obtain ⟨items, position, rfl⟩ := exists_of_kind h
    exact hread false ha (specs_rest settings items position ▸ hspec)

theorem ReturnsToStart.readMove_eq (h : n.ReturnsToStart) :
    (Control.readMove "start" .goBackShape n : Except GrammarFault (Control.Move τ)) =
      .ok .toMark := by
  obtain ⟨-, target, htarget, htext⟩ := h
  obtain ⟨rest, hatoms⟩ := List.head?_eq_some_iff.mp htarget
  rw [Control.readMove, hatoms]
  exact if_pos htext

theorem ReturnsToStart.effects_eq (h : n.ReturnsToStart) :
    (n.effects settings : List (Effect τ)) = [Hearing.toStart] := by
  have hmove := h.readMove_eq (τ := τ)
  obtain ⟨children, position, rfl⟩ := exists_of_kind h.1
  rw [effects, hmove]
  rfl

theorem ClosesMeasure.exists_effects_eq (h : n.ClosesMeasure settings) :
    ∃ b, (n.effects settings : List (Effect τ)) = [.barline b] := by
  obtain ⟨hkind, b, hb⟩ := h
  obtain ⟨children, position, rfl⟩ := exists_of_kind hkind
  exact ⟨b, by rw [effects, hb]; rfl⟩

end Node

namespace IsVoice

variable {settings : Settings} {voice : Nat} {elements : List Node}
  (h : IsVoice settings voice elements)

include h

theorem flatMap_effects :
    (elements.flatMap (Node.effects settings) : List (Effect τ)) =
      melody (elements.flatMap (Node.specs settings)) := by
  rw [melody, List.flatMap_assoc]
  exact List.flatMap_congr fun n hn => Node.effects_eq_melody (h n hn).1

theorem voice_of_mem_specs :
    ∀ spec ∈ elements.flatMap (Node.specs settings), spec.voice = some voice := by
  intro spec hspec
  obtain ⟨n, hn, hspec⟩ := List.mem_flatMap.mp hspec
  obtain ⟨reading, hvoice, rfl⟩ := Node.exists_reading_of_mem_specs (h n hn).1 (h n hn).2 hspec
  exact hvoice

end IsVoice

/-- Behind a barline, or where nothing has been read, a measure starts. -/
theorem Hearing.time_run_eq {settings : Settings} {front : List Node}
    (hfront : ∀ last ∈ front.getLast?, last.ClosesMeasure settings) :
    let h : Hearing τ := Hearing.initial.run (front.flatMap (Node.effects settings))
    h.cursor.time = h.cursor.measureStart := by
  rcases List.eq_nil_or_concat front with rfl | ⟨before, last, rfl⟩
  · rfl
  · obtain ⟨b, hb⟩ := (hfront last (by simp)).exists_effects_eq (τ := τ)
    simp [hb, after, Cursor.nextMeasure]

/-! ### What has been reached -/

/-- No effect takes back what has been reached. -/
def Effect.GoesOn (effect : Effect τ) : Prop :=
  ∀ h : Hearing τ, NotLater h.cursor.reached (h.after effect).cursor.reached

namespace Effect

variable [ComparableTime τ]

theorem goesOn_of_reached_eq {effect : Effect τ}
    (h : ∀ h : Hearing τ, (h.after effect).cursor.reached = h.cursor.reached) : effect.GoesOn :=
  fun hearing => by
    rw [h]
    exact OrderedTime.refl _

theorem goesOn_note (spec : NoteSpec) : (note spec : Effect τ).GoesOn :=
  goesOn_of_reached_eq fun _ => rfl

theorem goesOn_sign (symbol : StaffSymbol) : (sign symbol : Effect τ).GoesOn :=
  goesOn_of_reached_eq fun _ => by cases symbol <;> rfl

theorem goesOn_barline (b : Control.BarlineSpec) : (barline b : Effect τ).GoesOn :=
  goesOn_of_reached_eq fun _ => rfl

theorem goesOn_goBack (m : Control.Move τ) : (move (·.goBack m) : Effect τ).GoesOn :=
  goesOn_of_reached_eq fun _ => by cases m <;> rfl

theorem goesOn_goForward (m : Control.Move τ) : (move (·.goForward m) : Effect τ).GoesOn :=
  fun _ => by cases m <;> exact ComparableTime.left_le_later _ _

theorem goesOn_of_mem_together {specs : List NoteSpec} {effect : Effect τ}
    (h : effect ∈ together specs) : effect.GoesOn := by
  rcases List.mem_append.mp h with h | h
  · obtain ⟨spec, -, rfl⟩ := List.mem_map.mp h
    exact goesOn_note spec
  · obtain ⟨spec, -, rfl⟩ := List.mem_map.mp h
    exact fun _ => ComparableTime.left_le_later _ _

omit [ComparableTime τ] in
theorem goesOn_of_mem_ofReading {ε α : Type} {use : α → Effect τ}
    (huse : ∀ value, (use value).GoesOn) {reading : Except ε α} {effect : Effect τ}
    (h : effect ∈ ofReading use reading) : effect.GoesOn := by
  cases reading with
  | ok value => exact List.mem_singleton.mp h ▸ huse value
  | error fault => cases h

theorem goesOn_of_mem_effects {settings : Settings} {n : Node} {effect : Effect τ}
    (h : effect ∈ n.effects settings) : effect.GoesOn := by
  cases n with
  | atom kind text position => cases h
  | element name children position =>
      cases name with
      | note | rest | chord => exact goesOn_of_mem_together h
      | clef | key | time | volta => exact goesOn_of_mem_ofReading (fun _ => goesOn_sign _) h
      | barline => exact goesOn_of_mem_ofReading goesOn_barline h
      | goBack => exact goesOn_of_mem_ofReading goesOn_goBack h
      | goForward => exact goesOn_of_mem_ofReading goesOn_goForward h
      | _ => cases h

end Effect

theorem Hearing.notLater_reached_run [ComparableTime τ] (h : Hearing τ) {effects : List (Effect τ)}
    (heffects : ∀ effect ∈ effects, effect.GoesOn) :
    NotLater h.cursor.reached (h.run effects).cursor.reached := by
  induction effects generalizing h with
  | nil => exact OrderedTime.refl _
  | cons effect rest ih =>
      obtain ⟨heffect, hrest⟩ := List.forall_mem_cons.mp heffects
      exact OrderedTime.trans (heffect h) (ih _ hrest)

/-- Music never ends before it starts. -/
theorem Hearing.zero_le_reached [ComparableTime τ] (settings : Settings) (elements : List Node) :
    let h : Hearing τ := Hearing.initial.run (elements.flatMap (Node.effects settings))
    NotLater TimeValue.zero h.cursor.reached :=
  Hearing.initial.notLater_reached_run fun _ heffect =>
    have ⟨_, _, heffect⟩ := List.mem_flatMap.mp heffect
    Effect.goesOn_of_mem_effects heffect

/-! ### The order of two voices -/

/-- Objects of two voices are not equal in the order of time and voice. -/
theorem HeardObject.inOrder_exchange [ComparableTime τ] {voice voice' : Nat} (hne : voice ≠ voice')
    {xs ys : List (HeardObject τ)} (hxs : ∀ x ∈ xs, x.voice = voice)
    (hys : ∀ y ∈ ys, y.voice = voice') (front behind : List (HeardObject τ)) :
    inOrder (front ++ (xs ++ (ys ++ behind))) = inOrder (front ++ (ys ++ (xs ++ behind))) := by
  refine stableSort_exchange notAfter_trans notAfter_total (fun x hx y hy h => hne ?_) front behind
  rw [notAfter_iff_le, notAfter_iff_le] at h
  obtain ⟨⟨hle, hvoice⟩, hge, hvoice'⟩ := h
  rw [← hxs x hx, ← hys y hy]
  exact (hvoice hge).antisymm (hvoice' hle)

/-- It does not matter which of two voices is written first. -/
theorem TwoVoices.inOrder_hear_eq [ComparableTime τ] {settings : Settings} (m : TwoVoices settings)
    {front behind : List Node} (hfront : ∀ last ∈ front.getLast?, last.ClosesMeasure settings)
    (hbehind : ∀ next ∈ behind.head?, next.ClosesMeasure settings) :
    HeardObject.inOrder ((Hearing.initial : Hearing τ).hear
        ((front ++ (m.elements ++ behind)).flatMap (Node.effects settings))) =
      HeardObject.inOrder (Hearing.initial.hear
        ((front ++ (m.exchanged.elements ++ behind)).flatMap (Node.effects settings))) := by
  have helements (m : TwoVoices settings) :
      ((m.elements ++ behind).flatMap (Node.effects settings) : List (Effect τ)) =
        melody (m.first.flatMap (Node.specs settings)) ++ Hearing.toStart ::
          (melody (m.second.flatMap (Node.specs settings)) ++
            behind.flatMap (Node.effects settings)) := by
    simp [TwoVoices.elements, m.isVoice_first.flatMap_effects, m.isVoice_second.flatMap_effects,
      m.returns.effects_eq]
  have hbarline : ∀ effect ∈ (behind.flatMap (Node.effects settings) : List (Effect τ)).head?,
      ∃ b, effect = .barline b := by
    cases behind with
    | nil => simp
    | cons next rest =>
        obtain ⟨b, hb⟩ := (hbehind next rfl).exists_effects_eq (τ := τ)
        simp [hb]
  obtain ⟨tail, hfirst, hsecond⟩ := Hearing.exists_hear_melodies (Hearing.time_run_eq hfront)
    (Hearing.zero_le_reached settings front) (m.first.flatMap (Node.specs settings))
    (m.second.flatMap (Node.specs settings)) hbarline
  rw [List.flatMap_append, Hearing.hear_append, helements, hfirst, List.flatMap_append,
    Hearing.hear_append, helements, exchanged, hsecond]
  exact HeardObject.inOrder_exchange m.voices_ne
    (fun x hx => Hearing.voice_of_mem_hear_melody m.isVoice_first.voice_of_mem_specs hx)
    (fun y hy => Hearing.voice_of_mem_hear_melody m.isVoice_second.voice_of_mem_specs hy) _ tail

/-! ## Scores -/

def Node.isMusic (n : Node) : Bool := n.kind = .element .music

/-- The children of an instrument are written twice. The music is the same, but for one measure
whose voices are written in the other order. It may be divided into other blocks. -/
structure ExchangesVoices (settings : Settings) (children children' : List Node) : Prop where
  others : (children.filter (!·.isMusic)).map Node.placeless =
    (children'.filter (!·.isMusic)).map Node.placeless
  /-- A barline, or the end of the music, is on either side of the measure. -/
  music : ∃ (front : List Node) (m : TwoVoices settings) (behind : List Node),
    musicOf children = front ++ (m.elements ++ behind) ∧
    (musicOf children').map Node.placeless =
      (front ++ (m.exchanged.elements ++ behind)).map Node.placeless ∧
    (∀ last ∈ front.getLast?, last.ClosesMeasure settings) ∧
    ∀ next ∈ behind.head?, next.ClosesMeasure settings

/-- A child of a score is the same up to positions, or it is an instrument with a measure whose
voices are written in the other order. -/
inductive Node.WritesSame (settings : Settings) : Node → Node → Prop where
  | same {n n' : Node} (h : n.placeless = n'.placeless) : WritesSame settings n n'
  | exchanged {children children' : List Node} {position position' : Position}
      (h : ExchangesVoices settings children children') :
      WritesSame settings (.element .instrument children position)
        (.element .instrument children' position')

theorem MidiInfo.foldl_after_filter (midi : MidiInfo) (children : List Node) :
    (children.filter (!·.isMusic)).foldl after midi = children.foldl after midi := by
  have hafter (midi : MidiInfo) (child : Node) (h : child.isMusic = true) :
      midi.after child = midi := by
    obtain ⟨elements, position, rfl⟩ := Node.exists_of_kind (of_decide_eq_true h)
    rfl
  induction children generalizing midi with
  | nil => rfl
  | cons child rest ih =>
      cases hchild : child.isMusic with
      | true => simp [hchild, ih, hafter midi child hchild]
      | false => simp [hchild, ih]

namespace ExchangesVoices

variable {settings : Settings} {children children' : List Node}
  (h : ExchangesVoices settings children children')

include h

/-- The same is heard of the instrument in the order of time. -/
theorem inOrder_hearInstrument_eq [ComparableTime τ] :
    (hearInstrument settings children : HeardInstrument τ).inOrder =
      (hearInstrument settings children').inOrder := by
  obtain ⟨front, m, behind, hmusic, hmusic', hfront, hbehind⟩ := h.music
  have hmidi (midi : MidiInfo) :
      children.foldl MidiInfo.after midi = children'.foldl MidiInfo.after midi := by
    rw [← MidiInfo.foldl_after_filter, ← foldl_after_placeless, h.others, foldl_after_placeless,
      MidiInfo.foldl_after_filter]
  have hobjects := m.inOrder_hear_eq (τ := τ) hfront hbehind
  rw [← hmusic, ← Node.flatMap_effects_congr settings hmusic'] at hobjects
  exact congrArg₂ HeardInstrument.mk (hmidi _) hobjects

/-- Each element of one instrument stands somewhere in the other one. -/
theorem exists_of_mem_musicOf {n : Node} (hn : n ∈ musicOf children') :
    ∃ m ∈ musicOf children, m.placeless = n.placeless := by
  obtain ⟨front, m, behind, hmusic, hmusic', -, -⟩ := h.music
  have hmem : n.placeless ∈ (front ++ (m.exchanged.elements ++ behind)).map Node.placeless :=
    hmusic' ▸ List.mem_map_of_mem hn
  obtain ⟨n', hn', hplaceless⟩ := List.mem_map.mp hmem
  have hperm : (front ++ (m.exchanged.elements ++ behind)).Perm
      (front ++ (m.elements ++ behind)) := (m.elements_exchanged_perm.append_right _).append_left _
  exact ⟨n', hmusic ▸ hperm.mem_iff.mp hn', hplaceless⟩

end ExchangesVoices

namespace Node.WritesSame

variable {settings : Settings} {n n' : Node} (h : n.WritesSame settings n')

include h

theorem isInstrument_eq : n.isInstrument = n'.isInstrument := by
  cases h with
  | same h => rw [← n.isInstrument_placeless, h, n'.isInstrument_placeless]
  | exchanged h => rfl

theorem inOrder_hearInstrument_eq [ComparableTime τ] :
    (hearInstrument settings n.children : HeardInstrument τ).inOrder =
      (hearInstrument settings n'.children).inOrder := by
  cases h with
  | same h =>
      have hchildren : n.children.map placeless = n'.children.map placeless := by
        rw [← n.children_placeless, h, n'.children_placeless]
      rw [hearInstrument_congr settings hchildren]
  | exchanged h => exact h.inOrder_hearInstrument_eq

theorem exists_of_mem_musicOf {element : Node} (helement : element ∈ musicOf n'.children) :
    ∃ element' ∈ musicOf n.children, element'.placeless = element.placeless := by
  cases h with
  | same h =>
      have hmusic : (musicOf n'.children).map placeless = (musicOf n.children).map placeless := by
        rw [← musicOf_map_placeless, ← children_placeless, ← h, children_placeless,
          musicOf_map_placeless]
      have hmem : element.placeless ∈ (musicOf n.children).map placeless :=
        hmusic ▸ List.mem_map_of_mem helement
      exact List.mem_map.mp hmem
  | exchanged h => exact h.exists_of_mem_musicOf helement

end Node.WritesSame

theorem isPlainScore_of_admits {settings : Settings} {children : List Node}
    (h : ∀ child ∈ children, child.Admits settings NoteReading.IsPlain) :
    IsPlainScore settings children := by
  intro child hchild _ element helement
  obtain ⟨block, hblock, helement⟩ := List.mem_flatMap.mp helement
  split at helement
  · exact ((h child hchild).child _ hblock).child element helement
  · cases helement

theorem IsPlainScore.of_writesSame {settings : Settings} {children children' : List Node}
    (hplain : IsPlainScore settings children)
    (h : List.Forall₂ (Node.WritesSame settings) children children') :
    IsPlainScore settings children' := by
  induction h with
  | nil => exact nofun
  | @cons n n' rest rest' hn _ ih =>
      obtain ⟨hfirst, hrest⟩ := List.forall_mem_cons.mp hplain
      refine List.forall_mem_cons.mpr ⟨fun hinstrument element helement => ?_, ih hrest⟩
      obtain ⟨element', helement', hplaceless⟩ := hn.exists_of_mem_musicOf helement
      refine (hfirst (hn.isInstrument_eq.trans hinstrument) element' helement').of_placeless
        (fun r r' heq hr => hr.of_spec_eq ?_) hplaceless
      exact (congrArg NoteReading.spec heq : r.placeless.spec = r'.placeless.spec)

theorem map_inOrder_hearScore_eq [ComparableTime τ] {settings : Settings}
    {children children' : List Node}
    (h : List.Forall₂ (Node.WritesSame settings) children children') :
    (hearScore settings children : List (HeardInstrument τ)).map HeardInstrument.inOrder =
      (hearScore settings children').map HeardInstrument.inOrder := by
  induction h with
  | nil => rfl
  | @cons n n' rest rest' hn _ ih =>
      have hinstrument := hn.isInstrument_eq
      have hhearing := hn.inOrder_hearInstrument_eq (τ := τ)
      rw [hearScore, hearScore] at ih ⊢
      cases hn' : n'.isInstrument with
      | true => simp [hn', hinstrument, hhearing, ih]
      | false => simp [hn', hinstrument, ih]

/-- The order in which voices are written does not matter. Of a plain score, two voices of a measure
may be exchanged in each instrument, and only the indices of staff objects tell the difference. Of
times only the order counts, so this holds in doubles too. -/
theorem withoutIndices_eq_of_writesSame [ComparableTime τ] {settings : Settings}
    {children children' : List Node}
    (hplain : ∀ child ∈ children, child.Admits settings NoteReading.IsPlain)
    (h : List.Forall₂ (Node.WritesSame settings) children children') :
    (SoundTable.ofScore
        (analyseScore settings children : ScoreAnalysis τ).score).withoutIndices =
      (SoundTable.ofScore
        (analyseScore settings children' : ScoreAnalysis τ).score).withoutIndices := by
  have hscore : IsPlainScore settings children := isPlainScore_of_admits hplain
  obtain ⟨hrelations, hheard⟩ := heard_analyseScore (τ := τ) hscore
  obtain ⟨hrelations', hheard'⟩ := heard_analyseScore (τ := τ) (hscore.of_writesSame h)
  refine Score.withoutIndices_ofScore_congr hrelations hrelations' ?_
  rw [hheard, hheard', map_inOrder_hearScore_eq h]

/-! ### A score with two voices -/

/-- The notes and rests of a voice: what is played, if anything, and for how long. -/
abbrev VoicePart := List (Option String × String)

/-- What a note or rest of a voice is written with. -/
def voiceItems (position : Position) (voice : String) (pitch : Option String) (duration : String) :
    List Node :=
  (pitch.toList ++ [duration, voice]).map fun text => .atom .label text position

/-- A voice, all at one position. -/
def voicePart (position : Position) (voice : String) (part : VoicePart) : List Node :=
  part.map fun (pitch, duration) =>
    .element (NoteOption.elementOf pitch.isSome) (voiceItems position voice pitch duration) position

def firstMeasure (position : Position) : List Node :=
  voicePart position "v1" [(some "c5", "h")] ++
    [.element .barline [.atom .label "simple" position] position]

def backToStart (position : Position) : Node :=
  .element .goBack [.atom .label "start" position] position

def finalBarline (position : Position) : Node :=
  .element .barline [.atom .label "end" position] position

/-- A score with a measure of one voice and a measure of two voices. -/
def voiceScore (position : Position) (voice : String) (part : VoicePart) (voice' : String)
    (part' : VoicePart) : List Node :=
  [.element .instrument [.element .music
    (firstMeasure position ++
      (voicePart position voice part ++ backToStart position :: voicePart position voice' part' ++
        [finalBarline position])) position] position]

def upperPart : VoicePart := [(some "e4", "h"), (some "d4", "q")]

def lowerPart : VoicePart := [(none, "q"), (some "g3", "q")]

theorem admits_voicePart {admitted : NoteReading → Prop} {position : Position} {voice : String}
    {part : VoicePart}
    (h : ∀ note ∈ part, ∀ display reading, NoteReading.read {} display note.1.isSome
      (voiceItems position voice note.1 note.2) = .ok reading → admitted reading) :
    ∀ n ∈ voicePart position voice part, n.Admits {} admitted := by
  refine List.forall_mem_map.mpr fun note hnote => Node.admits_element ?_ fun isNote hisNote => ?_
  · exact List.forall_mem_map.mpr fun text _ => Node.admits_atom _ _ _ _ _
  · obtain rfl : isNote = note.1.isSome := by
      cases isNote <;> cases hsome : note.1.isSome <;> simp_all [NoteOption.elementOf]
    exact h note hnote

theorem isPlain_upperPart (position : Position) :
    ∀ note ∈ upperPart, ∀ display reading, NoteReading.read {} display note.1.isSome
      (voiceItems position "v1" note.1 note.2) = .ok reading →
        reading.IsPlain ∧ reading.spec.voice = some 1 := by
  simp only [upperPart, List.forall_mem_cons]
  refine ⟨?_, ?_, nofun⟩
  · rintro display _ ⟨⟩
    exact ⟨⟨rfl, rfl, rfl, by rintro _ ⟨⟩; rfl, rfl⟩, rfl⟩
  · rintro display _ ⟨⟩
    exact ⟨⟨rfl, rfl, rfl, by rintro _ ⟨⟩; rfl, rfl⟩, rfl⟩

theorem isPlain_lowerPart (position : Position) :
    ∀ note ∈ lowerPart, ∀ display reading, NoteReading.read {} display note.1.isSome
      (voiceItems position "v2" note.1 note.2) = .ok reading →
        reading.IsPlain ∧ reading.spec.voice = some 2 := by
  simp only [lowerPart, List.forall_mem_cons]
  refine ⟨?_, ?_, nofun⟩
  · rintro display _ ⟨⟩
    exact ⟨⟨rfl, rfl, rfl, nofun, rfl⟩, rfl⟩
  · rintro display _ ⟨⟩
    exact ⟨⟨rfl, rfl, rfl, by rintro _ ⟨⟩; rfl, rfl⟩, rfl⟩

theorem isPlain_firstMeasure (position : Position) : ∀ note ∈ [(some "c5", "h")], ∀ display reading,
    NoteReading.read {} display note.1.isSome (voiceItems position "v1" note.1 note.2) =
      .ok reading → reading.IsPlain := by
  simp only [List.forall_mem_singleton]
  rintro display _ ⟨⟩
  exact ⟨rfl, rfl, rfl, by rintro _ ⟨⟩; rfl, rfl⟩

theorem admits_voiceScore (position : Position) :
    ∀ child ∈ voiceScore position "v1" upperPart "v2" lowerPart,
      child.Admits {} NoteReading.IsPlain := by
  have hword (text : String) : ∀ child ∈ [Node.atom .label text position],
      child.Admits {} NoteReading.IsPlain :=
    List.forall_mem_singleton.mpr (Node.admits_atom _ _ _ _ _)
  have hbarline (text : String) :
      (Node.element .barline [.atom .label text position] position).Admits {} NoteReading.IsPlain :=
    Node.admits_element_of_ne nofun nofun (hword text)
  have hback : (backToStart position).Admits {} NoteReading.IsPlain :=
    Node.admits_element_of_ne nofun nofun (hword "start")
  have hfirst := admits_voicePart (isPlain_firstMeasure position)
  have hupper := admits_voicePart fun note hnote display reading hread =>
    (isPlain_upperPart position note hnote display reading hread).1
  have hlower := admits_voicePart fun note hnote display reading hread =>
    (isPlain_lowerPart position note hnote display reading hread).1
  refine List.forall_mem_singleton.mpr (Node.admits_element_of_ne nofun nofun ?_)
  refine List.forall_mem_singleton.mpr (Node.admits_element_of_ne nofun nofun ?_)
  simp only [firstMeasure, finalBarline, List.forall_mem_append, List.forall_mem_cons]
  exact ⟨⟨hfirst, hbarline _, nofun⟩, ⟨hupper, hback, hlower⟩, hbarline _, nofun⟩

theorem isVoice_voicePart {voice : Nat} {position : Position} {text : String} {part : VoicePart}
    (h : ∀ note ∈ part, ∀ display reading, NoteReading.read {} display note.1.isSome
      (voiceItems position text note.1 note.2) = .ok reading →
        reading.IsPlain ∧ reading.spec.voice = some voice) :
    IsVoice {} voice (voicePart position text part) := by
  refine fun n hn => ⟨?_, admits_voicePart (fun note hnote display reading hread =>
    (h note hnote display reading hread).2) n hn⟩
  obtain ⟨note, -, rfl⟩ := List.mem_map.mp hn
  cases hsome : note.1.isSome
  · exact .inr (congrArg _ (congrArg _ hsome))
  · exact .inl (congrArg _ (congrArg _ hsome))

/-- The measure of two voices. -/
def upperAndLower : TwoVoices {} where
  first := voicePart ⟨1, 1⟩ "v1" upperPart
  back := backToStart ⟨1, 1⟩
  second := voicePart ⟨1, 1⟩ "v2" lowerPart
  firstVoice := 1
  secondVoice := 2
  isVoice_first := isVoice_voicePart (isPlain_upperPart _)
  isVoice_second := isVoice_voicePart (isPlain_lowerPart _)
  voices_ne := by decide
  returns := ⟨rfl, _, rfl, rfl⟩

theorem writesSame_voiceScore :
    List.Forall₂ (Node.WritesSame {}) (voiceScore ⟨1, 1⟩ "v1" upperPart "v2" lowerPart)
      (voiceScore ⟨2, 2⟩ "v2" lowerPart "v1" upperPart) := by
  refine .cons (.exchanged ⟨rfl, firstMeasure ⟨1, 1⟩, upperAndLower, [finalBarline ⟨1, 1⟩],
    rfl, rfl, ?_, ?_⟩) .nil
  · rintro _ ⟨⟩
    exact ⟨rfl, _, rfl⟩
  · rintro _ ⟨⟩
    exact ⟨rfl, _, rfl⟩

/-- The upper and the lower voice may be written first. The indices do tell the difference. -/
theorem withoutIndices_voiceScore :
    let upperFirst : ScoreAnalysis Float :=
      analyseScore {} (voiceScore ⟨1, 1⟩ "v1" upperPart "v2" lowerPart)
    let lowerFirst : ScoreAnalysis Float :=
      analyseScore {} (voiceScore ⟨2, 2⟩ "v2" lowerPart "v1" upperPart)
    (SoundTable.ofScore upperFirst.score).withoutIndices =
        (SoundTable.ofScore lowerFirst.score).withoutIndices ∧
      (SoundTable.ofScore upperFirst.score).events.map SoundEvent.object ≠
        (SoundTable.ofScore lowerFirst.score).events.map SoundEvent.object :=
  ⟨withoutIndices_eq_of_writesSame (admits_voiceScore _) writesSame_voiceScore, by decide +kernel⟩

end ScorePlayback
