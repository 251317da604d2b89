import Mathlib.Data.List.Chain
import ScorePlayback.Proofs.Analysis.CrossLinks
import ScorePlayback.Proofs.Sound.TiedSounds

/-! # Chains of ties

Each note looks for its ties on its own. Where one tie after the other joins notes of one pitch, and
no other tie starts or ends with them, the looking finds these ties, whatever other relations the
notes have. So the first note starts and the last one stops, and in between the sound only moves on
from note to note. -/

namespace ScorePlayback

variable {τ : Type}

/-! ## Ties that are found -/

namespace Score

/-- A note has the number of a relation if and only if it is one of its parts. -/
def LinksAgree (score : Score τ) : Prop :=
  ∀ (note : Nat) (n : NoteRest τ), score.notes[note]? = some n → ∀ number,
    number ∈ n.relations ↔ ∃ r : Relation, score.relations[number]? = some r ∧ note ∈ r.parts

theorem IsLinked.linksAgree {score : Score τ} (h : score.IsLinked) : score.LinksAgree := by
  intro note n hn number
  rw [← List.count_pos_iff, h.count_number note n hn]
  cases score.relations[number]? with
  | none => simp
  | some r => simp [List.count_pos_iff]

/-- A tie joins two notes, and no other one starts with the first or ends with the second. -/
structure OnlyTie (score : Score τ) (a b : Nat) : Prop where
  exists_mem : ∃ r ∈ score.relations, r.kind = .tie ∧ r.parts = [a, b]
  first : ∀ r ∈ score.relations, r.kind = .tie → r.parts.head? = some a → r.parts = [a, b]
  last : ∀ r ∈ score.relations, r.kind = .tie → r.parts.getLast? = some b → r.parts = [a, b]

instance (score : Score τ) (a b : Nat) : Decidable (score.OnlyTie a b) :=
  decidable_of_iff (_ ∧ (∀ _ ∈ _, _) ∧ ∀ _ ∈ _, _)
    ⟨fun ⟨exists_mem, first, last⟩ => ⟨exists_mem, first, last⟩,
      fun h => ⟨h.exists_mem, h.first, h.last⟩⟩

variable {score : Score τ} {note : Nat}

theorem LinksAgree.mem_relationsOf (h : score.LinksAgree) {n : NoteRest τ}
    (hn : score.notes[note]? = some n) {r : Relation} (hr : r ∈ score.relations)
    (hnote : note ∈ r.parts) : r ∈ score.relationsOf note := by
  obtain ⟨number, hnumber⟩ := List.getElem?_of_mem hr
  rw [relationsOf, hn]
  exact List.mem_filterMap.mpr ⟨number, (h note n hn number).mpr ⟨r, hnumber, hnote⟩, hnumber⟩

theorem exists_note_of_midi? {pitch : Nat} (h : score.midi? note = some pitch) :
    ∃ n, score.notes[note]? = some n := by
  obtain ⟨p, hp, -⟩ := Option.map_eq_some_iff.mp h
  obtain ⟨n, hn, -⟩ := Option.bind_eq_some_iff.mp hp
  exact ⟨n, hn⟩

theorem OnlyTie.soundGoesOn {a b pitch : Nat} (h : score.OnlyTie a b) (hlinks : score.LinksAgree)
    (ha : score.midi? a = some pitch) (hb : score.midi? b = some pitch) :
    score.soundGoesOn a = true := by
  obtain ⟨n, hn⟩ := exists_note_of_midi? ha
  obtain ⟨tie, htie, hkind, hparts⟩ := h.exists_mem
  have hmem : tie ∈ score.relationsOf a :=
    hlinks.mem_relationsOf hn htie (by simp [hparts])
  have hsome : (score.tieAfter? a).isSome := by
    rw [tieAfter?, List.find?_isSome]
    exact ⟨tie, hmem, by simp [hkind, hparts]⟩
  obtain ⟨r, hr⟩ := Option.isSome_iff_exists.mp hsome
  obtain ⟨hrel, htie, hhead⟩ := tie_of_tieAfter? hr
  have hkey : score.sameKey a b = true := sameKey_iff.mpr ⟨pitch, ha, hb⟩
  simp [Score.soundGoesOn, hr, h.first r hrel htie hhead, hkey]

theorem OnlyTie.soundStarted {a b pitch : Nat} (h : score.OnlyTie a b) (hlinks : score.LinksAgree)
    (ha : score.midi? a = some pitch) (hb : score.midi? b = some pitch) :
    score.soundStarted b = true := by
  obtain ⟨n, hn⟩ := exists_note_of_midi? hb
  obtain ⟨tie, htie, hkind, hparts⟩ := h.exists_mem
  have hmem : tie ∈ score.relationsOf b :=
    hlinks.mem_relationsOf hn htie (by simp [hparts])
  have hsome : (score.tieBefore? b).isSome := by
    rw [tieBefore?, List.find?_isSome]
    exact ⟨tie, hmem, by simp [hkind, hparts]⟩
  obtain ⟨r, hr⟩ := Option.isSome_iff_exists.mp hsome
  obtain ⟨hrel, htie, hlast⟩ := tie_of_tieBefore? hr
  have hkey : score.sameKey a b = true := sameKey_iff.mpr ⟨pitch, ha, hb⟩
  simp [Score.soundStarted, hr, h.last r hrel htie hlast, hkey]

/-- Nothing goes on from a note with which no tie starts. -/
theorem soundGoesOn_eq_false_of_forall
    (h : ∀ r ∈ score.relations, r.kind = .tie → r.parts.head? ≠ some note) :
    score.soundGoesOn note = false := by
  have hnone : score.tieAfter? note = none := by
    refine Option.eq_none_iff_forall_ne_some.mpr fun r hr => ?_
    obtain ⟨hrel, htie, hhead⟩ := tie_of_tieAfter? hr
    exact h r hrel htie hhead
  simp [soundGoesOn, hnone]

theorem soundStarted_eq_false_of_forall
    (h : ∀ r ∈ score.relations, r.kind = .tie → r.parts.getLast? ≠ some note) :
    score.soundStarted note = false := by
  have hnone : score.tieBefore? note = none := by
    refine Option.eq_none_iff_forall_ne_some.mpr fun r hr => ?_
    obtain ⟨hrel, htie, hlast⟩ := tie_of_tieBefore? hr
    exact h r hrel htie hlast
  simp [soundStarted, hnone]

end Score

/-! ## Chains -/

/-- A note on the timeline of an instrument. -/
structure StandingNote (τ : Type) where
  note : Nat
  index : Nat
  object : StaffObject τ

/-- Its place, given the number of the instrument. -/
def StandingNote.ref (number : Nat) (p : StandingNote τ) : ObjectRef := ⟨number, p.index⟩

/-- Distinct notes of an instrument, all of one pitch, each of which is tied to the next and to
nothing else. -/
structure Score.IsTieChain (score : Score τ) (number : Nat) (i : Instrument τ) (pitch : Nat)
    (chain : List (StandingNote τ)) : Prop where
  instrument : score.instruments[number]? = some i
  stands : ∀ p ∈ chain, i.timeline[p.index]? = some p.object ∧ p.object.symbol = .noteRest p.note
  distinct : (chain.map StandingNote.note).Nodup
  pitch : ∀ p ∈ chain, score.midi? p.note = some pitch
  tied : chain.IsChain fun p q => score.OnlyTie p.note q.note
  first : ∀ p ∈ chain.head?, ∀ r ∈ score.relations, r.kind = .tie →
    r.parts.getLast? ≠ some p.note
  last : ∀ p ∈ chain.getLast?, ∀ r ∈ score.relations, r.kind = .tie → r.parts.head? ≠ some p.note

namespace StandingNote

variable [TimeValue τ]

/-- The note is heard or seen from its time on. -/
def attack (midi : MidiInfo) (number pitch : Nat) (kind : EventKind) (p : StandingNote τ) :
    SoundEvent τ :=
  objectEvent midi p.object (p.ref number) kind p.object.time pitch none

/-- The note is heard or seen until its end. -/
def release (midi : MidiInfo) (number pitch : Nat) (kind : EventKind) (p : StandingNote τ) :
    SoundEvent τ :=
  objectEvent midi p.object (p.ref number) kind p.object.finish pitch none

/-- The events of notes that sound as one: the first note starts, each one but the last hands over
to the next, and the last one stops. -/
def joinedEvents (midi : MidiInfo) (number pitch : Nat) (chain : List (StandingNote τ)) :
    List (SoundEvent τ) :=
  chain.head?.toList.map (attack midi number pitch .noteOn) ++
    (chain.zip chain.tail).flatMap (fun (p, q) =>
      [release midi number pitch .visualOff p, attack midi number pitch .visualOn q]) ++
    chain.getLast?.toList.map (release midi number pitch .noteOff)

end StandingNote

section

variable [TimeValue τ] {score : Score τ} {number pitch : Nat} {i : Instrument τ}

/-- The two events of a note that has a pitch. -/
theorem objectEvents_of_midi? {p : StandingNote τ} (hsymbol : p.object.symbol = .noteRest p.note)
    (hpitch : score.midi? p.note = some pitch) :
    objectEvents score i.midi p.object (p.ref number) =
      [p.attack i.midi number pitch (if score.soundStarted p.note then .visualOn else .noteOn),
        p.release i.midi number pitch (if score.soundGoesOn p.note then .visualOff else .noteOff)] := by
  obtain ⟨q, hq, rfl⟩ := Option.map_eq_some_iff.mp hpitch
  obtain ⟨n, hn, hnote⟩ := Option.bind_eq_some_iff.mp hq
  simp only [objectEvents, hsymbol, hn, hnote]
  rfl

/-- One note after the other, the events of a chain. -/
theorem flatMap_objectEvents_cons (hlinks : score.LinksAgree) {p : StandingNote τ}
    {rest : List (StandingNote τ)}
    (hsymbol : ∀ q ∈ p :: rest, q.object.symbol = .noteRest q.note)
    (hpitch : ∀ q ∈ p :: rest, score.midi? q.note = some pitch)
    (htied : (p :: rest).IsChain fun q r => score.OnlyTie q.note r.note)
    (hlast : ∀ q ∈ (p :: rest).getLast?, ∀ r ∈ score.relations, r.kind = .tie →
      r.parts.head? ≠ some q.note) :
    (p :: rest).flatMap (fun q => objectEvents score i.midi q.object (q.ref number)) =
      p.attack i.midi number pitch (if score.soundStarted p.note then .visualOn else .noteOn) ::
        (((p :: rest).zip rest).flatMap fun (q, r) =>
          [q.release i.midi number pitch .visualOff, r.attack i.midi number pitch .visualOn]) ++
        (p :: rest).getLast?.toList.map (StandingNote.release i.midi number pitch .noteOff) := by
  obtain ⟨hp, hsymbols⟩ := List.forall_mem_cons.mp hsymbol
  obtain ⟨hpp, hpitches⟩ := List.forall_mem_cons.mp hpitch
  induction rest generalizing p with
  | nil =>
      have hends := Score.soundGoesOn_eq_false_of_forall (hlast p rfl)
      simp [objectEvents_of_midi? hp hpp, hends]
  | cons q rest ih =>
      obtain ⟨htie, hrest⟩ := List.isChain_cons_cons.mp htied
      obtain ⟨hq, hsymbols'⟩ := List.forall_mem_cons.mp hsymbols
      obtain ⟨hqp, hpitches'⟩ := List.forall_mem_cons.mp hpitches
      have hgoesOn := htie.soundGoesOn hlinks hpp hqp
      have hstarted := htie.soundStarted hlinks hpp hqp
      have hrun := ih hsymbols hpitches hrest (by simpa using hlast) hq hsymbols' hqp hpitches'
      rw [List.flatMap_cons, hrun, objectEvents_of_midi? hp hpp]
      simp [hgoesOn, hstarted]

theorem Score.IsTieChain.flatMap_objectEvents {chain : List (StandingNote τ)}
    (h : score.IsTieChain number i pitch chain) (hlinks : score.LinksAgree) :
    chain.flatMap (fun p => objectEvents score i.midi p.object (p.ref number)) =
      StandingNote.joinedEvents i.midi number pitch chain := by
  cases chain with
  | nil => rfl
  | cons p rest =>
      have hstarts := Score.soundStarted_eq_false_of_forall (h.first p rfl)
      rw [flatMap_objectEvents_cons hlinks (fun q hq => (h.stands q hq).2) h.pitch h.tied h.last]
      simp [StandingNote.joinedEvents, hstarts]

end

/-! ## The events of a chain -/

/-- What is kept for some keys is what is kept for each of them. -/
theorem filter_mem_perm_flatMap {α β : Type} [BEq β] [LawfulBEq β] [DecidableEq β] (f : α → β)
    {keys : List β} (h : keys.Nodup) (xs : List α) :
    (xs.filter fun x => f x ∈ keys).Perm
      (keys.flatMap fun key => xs.filter fun x => f x = key) := by
  induction keys with
  | nil => simp
  | cons key keys ih =>
      obtain ⟨hkey, hkeys⟩ := List.nodup_cons.mp h
      -- what is kept for the first key and for the others are two parts of it
      have hsplit := (List.filter_append_perm (fun x => f x = key)
        (xs.filter fun x => f x ∈ key :: keys)).symm
      rw [List.filter_filter, List.filter_filter] at hsplit
      have hfirst : (xs.filter fun x => decide (f x = key) && decide (f x ∈ key :: keys)) =
          xs.filter fun x => f x = key := by
        refine List.filter_congr fun x _ => ?_
        by_cases hx : f x = key <;> simp [hx]
      have hother : (xs.filter fun x => !decide (f x = key) && decide (f x ∈ key :: keys)) =
          xs.filter fun x => f x ∈ keys := by
        refine List.filter_congr fun x _ => ?_
        by_cases hx : f x = key <;> simp [hx, hkey]
      rw [hfirst, hother] at hsplit
      exact hsplit.trans ((ih hkeys).append_left _)

/-- The note that an event refers to. -/
def Score.noteOf? (score : Score τ) (e : SoundEvent τ) : Option Nat := do
  let ref ← e.object
  let i ← score.instruments[ref.instrument]?
  let object ← i.timeline[ref.index]?
  object.symbol.note?

section

variable [TimeValue τ] {score : Score τ} {number pitch : Nat} {i : Instrument τ}
  {chain : List (StandingNote τ)}

namespace Score.IsTieChain

omit [TimeValue τ] in
theorem nodup_indices (h : score.IsTieChain number i pitch chain) :
    (chain.map fun p => some (p.ref number)).Nodup := by
  refine List.Nodup.map_on (fun p hp q hq heq => ?_) h.distinct.of_map
  obtain ⟨hpObject, hpSymbol⟩ := h.stands p hp
  obtain ⟨hqObject, hqSymbol⟩ := h.stands q hq
  obtain ⟨note, index, object⟩ := p
  obtain ⟨note', index', object'⟩ := q
  obtain rfl : index = index' := by simpa [StandingNote.ref] using heq
  obtain rfl : object = object' := Option.some.inj (hpObject.symm.trans hqObject)
  obtain rfl : note = note' := StaffSymbol.noteRest.inj (hpSymbol.symm.trans hqSymbol)
  rfl

omit [TimeValue τ] in
/-- The objects of the chain are on the timeline of the instrument. -/
theorem holds (h : score.IsTieChain number i pitch chain) {p : StandingNote τ} (hp : p ∈ chain) :
    score.Holds (p.ref number) i p.object := ⟨h.instrument, (h.stands p hp).1⟩

theorem filter_unorderedEvents_perm (h : score.IsTieChain number i pitch chain)
    (hlinks : score.LinksAgree) :
    ((unorderedEvents score).filter fun e =>
        e.object ∈ chain.map fun p => some (p.ref number)).Perm
      (StandingNote.joinedEvents i.midi number pitch chain) := by
  refine (filter_mem_perm_flatMap SoundEvent.object h.nodup_indices _).trans (.of_eq ?_)
  rw [List.flatMap_map, ← h.flatMap_objectEvents hlinks]
  exact List.flatMap_congr fun p hp => filter_unorderedEvents (h.holds hp)

end Score.IsTieChain

omit [TimeValue τ] in
theorem Score.noteOf?_eq_some_iff {e : SoundEvent τ} {note : Nat} :
    score.noteOf? e = some note ↔ ∃ ref j object, e.object = some ref ∧
      score.Holds ref j object ∧ object.symbol = .noteRest note := by
  simp only [noteOf?, Option.bind_eq_bind, Option.bind_eq_some_iff,
    StaffSymbol.note?_eq_some_iff]
  constructor
  · rintro ⟨ref, href, j, hj, object, hobject, hsymbol⟩
    exact ⟨ref, j, object, href, ⟨hj, hobject⟩, hsymbol⟩
  · rintro ⟨ref, j, object, href, hholds, hsymbol⟩
    exact ⟨ref, href, j, hholds.instrument, object, hholds.object, hsymbol⟩

/-- Entries that differ from each other cannot stand at two places. -/
theorem index_eq_of_pairwise {α : Type} {r : α → α → Prop} {xs : List α} (h : xs.Pairwise r)
    {j k : Nat} {x y : α} (hx : xs[j]? = some x) (hy : xs[k]? = some y) (hxy : ¬r x y)
    (hyx : ¬r y x) : j = k := by
  obtain ⟨hj, rfl⟩ := List.getElem?_eq_some_iff.mp hx
  obtain ⟨hk, rfl⟩ := List.getElem?_eq_some_iff.mp hy
  rw [List.pairwise_iff_getElem] at h
  by_contra hne
  rcases Nat.lt_or_gt_of_ne hne with hlt | hgt
  · exact hxy (h j k hj hk hlt)
  · exact hyx (h k j hk hj hgt)

omit [TimeValue τ] in
/-- A note that stands on the timelines once has one place. -/
theorem Score.Holds.ref_unique (hnodup : score.noteNumbers.Nodup) {ref ref' : ObjectRef}
    {j j' : Instrument τ} {object object' : StaffObject τ} (h : score.Holds ref j object)
    (h' : score.Holds ref' j' object') {note : Nat} (hnote : object.symbol = .noteRest note)
    (hnote' : object'.symbol = .noteRest note) : ref = ref' := by
  obtain ⟨hown, hother⟩ := List.nodup_flatMap.mp hnodup
  have hmem {k : Instrument τ} {o : StaffObject τ} (ho : o ∈ k.timeline)
      (hsymbol : o.symbol = .noteRest note) :
      note ∈ k.timeline.filterMap fun object => object.symbol.note? :=
    List.mem_filterMap.mpr ⟨o, ho, StaffSymbol.note?_eq_some_iff.mpr hsymbol⟩
  have hj := hmem h.mem.2 hnote
  have hj' := hmem h'.mem.2 hnote'
  have hinstrument : ref.instrument = ref'.instrument :=
    index_eq_of_pairwise hother h.instrument h'.instrument
      (fun hdisjoint => hdisjoint hj hj') fun hdisjoint => hdisjoint hj' hj
  obtain rfl : j = j' :=
    Option.some.inj (h.instrument.symm.trans (hinstrument ▸ h'.instrument))
  have hindex : ref.index = ref'.index := by
    refine index_eq_of_pairwise (List.pairwise_filterMap.mp (hown j h.mem.1)) h.object h'.object
      (fun hne => ?_) fun hne => ?_
    · exact hne note (StaffSymbol.note?_eq_some_iff.mpr hnote) note
        (StaffSymbol.note?_eq_some_iff.mpr hnote') rfl
    · exact hne note (StaffSymbol.note?_eq_some_iff.mpr hnote') note
        (StaffSymbol.note?_eq_some_iff.mpr hnote) rfl
  obtain ⟨instrument, index⟩ := ref
  obtain ⟨instrument', index'⟩ := ref'
  exact congrArg₂ ObjectRef.mk hinstrument hindex

/-- A chain of ties sounds as one note: among the events of its notes the first one starts, the last
one stops, and in between each note is released for the eye where it ends and the next one is seen
from its time on. If no note stands twice on the timelines, these are all events that refer to a
note of the chain. -/
theorem SoundTable.joinedEvents_perm (hlinks : score.LinksAgree)
    (h : score.IsTieChain number i pitch chain) :
    (((ofScore score).events.filter fun e =>
        e.object ∈ chain.map fun p => some (p.ref number)).map SoundEvent.withoutDelta).Perm
      (StandingNote.joinedEvents i.midi number pitch chain) ∧
    (score.noteNumbers.Nodup →
      (ofScore score).events.filter (fun e => score.noteOf? e ∈ chain.map fun p => some p.note) =
        (ofScore score).events.filter fun e =>
          e.object ∈ chain.map fun p => some (p.ref number)) := by
  constructor
  · have hmap : (((ofScore score).events.filter fun e =>
        e.object ∈ chain.map fun p => some (p.ref number)).map SoundEvent.withoutDelta) =
          (inEventOrder (unorderedEvents score)).filter fun e =>
            e.object ∈ chain.map fun p => some (p.ref number) := by
      rw [← map_withoutDelta_soundEvents, List.filter_map]
      rfl
    rw [hmap]
    exact ((stableSort_perm _ _).filter _).trans (h.filter_unorderedEvents_perm hlinks)
  · intro hnodup
    refine List.filter_congr fun e _ => decide_eq_decide.mpr ?_
    simp only [List.mem_map]
    constructor
    · rintro ⟨p, hp, hnote⟩
      obtain ⟨ref, j, object, href, hholds, hsymbol⟩ := Score.noteOf?_eq_some_iff.mp hnote.symm
      refine ⟨p, hp, ?_⟩
      rw [href, (h.holds hp).ref_unique hnodup hholds (h.stands p hp).2 hsymbol]
    · rintro ⟨p, hp, href⟩
      refine ⟨p, hp, (Score.noteOf?_eq_some_iff.mpr ?_).symm⟩
      exact ⟨_, i, p.object, href.symm, h.holds hp, (h.stands p hp).2⟩

end

/-- Three tied notes inside a slur, with a note of another instrument on the same pitch. -/
def slurredTies : Node :=
  let here : Position := ⟨1, 1⟩
  let word (text : String) : Node := .atom .label text here
  let mark (name : ElementName) (key role : String) : Node :=
    .element name [.atom .number key here, word role] here
  let note (marks : List Node) : Node := .element .note ([word "c4", word "q"] ++ marks) here
  .element .score
    [.element .instrument [.element .music
      [note [mark .slur "1" "start", mark .tie "1" "start"],
        note [mark .tie "1" "stop", mark .tie "2" "start"],
        note [mark .slur "1" "stop", mark .tie "2" "stop"]] here] here,
    .element .instrument [.element .music [note []] here] here] here

theorem joinedEvents_perm_slurredTies :
    ∃ analysis : Analysis Rat, analyse {} slurredTies = .ok analysis ∧
      ∃ score ∈ analysis.document.scores, ∃ i chain, score.LinksAgree ∧
        score.IsTieChain 0 i 60 chain ∧ score.noteNumbers.Nodup ∧
        chain.map StandingNote.note = [0, 1, 2] ∧
        (StandingNote.joinedEvents i.midi 0 60 chain).map (fun e => (e.kind, e.time, e.object)) =
          [(.noteOn, 0, some ⟨0, 0⟩), (.visualOff, 64, some ⟨0, 0⟩),
            (.visualOn, 64, some ⟨0, 1⟩), (.visualOff, 128, some ⟨0, 1⟩),
            (.visualOn, 128, some ⟨0, 2⟩), (.noteOff, 192, some ⟨0, 2⟩)] ∧
        (((SoundTable.ofScore score).events.filter fun e =>
          score.noteOf? e ∈ chain.map fun p => some p.note).map SoundEvent.withoutDelta).Perm
            (StandingNote.joinedEvents i.midi 0 60 chain) := by
  have h : (analyse {} slurredTies : Except CompileError (Analysis Rat)) = .ok _ := rfl
  let score : Score Rat := (analyseScore {} slurredTies.children).score
  have hlinks : score.LinksAgree :=
    (isLinked_of_analyse h (List.mem_singleton.mpr rfl)).linksAgree
  let i := score.instruments.get ⟨0, by decide +kernel⟩
  -- the notes of the first instrument have the numbers of their places
  let chain : List (StandingNote Rat) :=
    i.timeline.zipIdx.map fun (object, index) => ⟨index, index, object⟩
  have hsymbols : ∀ e ∈ i.timeline.zipIdx, e.1.symbol = .noteRest e.2 := by decide +kernel
  have hchain : score.IsTieChain 0 i 60 chain := {
    instrument := rfl
    stands := List.forall_mem_map.mpr fun e he =>
      ⟨List.mem_zipIdx_iff_getElem?.mp he, hsymbols e he⟩
    distinct := by decide +kernel
    pitch := by decide +kernel
    tied := by decide +kernel
    first := by decide +kernel
    last := by decide +kernel }
  have hnodup : score.noteNumbers.Nodup := by decide +kernel
  obtain ⟨hperm, hall⟩ := SoundTable.joinedEvents_perm hlinks hchain
  refine ⟨_, h, score, List.mem_singleton.mpr rfl, i, chain, hlinks, hchain, hnodup,
    by decide +kernel, by decide +kernel, ?_⟩
  rw [hall hnodup]
  exact hperm

end ScorePlayback
