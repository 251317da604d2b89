import Mathlib.Data.List.Flatten
import Mathlib.Data.List.Nodup
import Mathlib.Data.List.Perm.Subperm
import ScorePlayback.Proofs.Analysis.NoteNumbers
import ScorePlayback.Proofs.Sound.EventOrder

/-! # Sounds that start and sounds that stop

Every note starts and stops on its channel, and a tie takes away the stop of its first note and the
start of its second one. Each of the two notes looks for the tie on its own and takes the first one
that it finds. So as many sounds start as stop wherever both notes of a tie find it. -/

namespace ScorePlayback

variable {τ : Type}

/-! ## What sounds on a channel -/

/-- The number of events of a kind on a channel and a pitch. -/
def SoundTable.countOn (t : SoundTable τ) (kind : EventKind) (channel pitch : Nat) : Nat :=
  t.events.countP fun e => e.kind = kind ∧ e.channel = channel ∧ e.pitch = pitch

namespace Score

def midi? (score : Score τ) (note : Nat) : Option Nat :=
  (score.notes[note]?.bind NoteRest.pitch).map Pitch.midi

/-- The notes on a channel that have a pitch, one instrument after the other. -/
def soundingOn (score : Score τ) (channel pitch : Nat) : List Nat :=
  score.instruments.flatMap fun i => i.timeline.flatMap fun object =>
    (object.symbol.note?.filter fun note =>
      i.midi.channel = channel ∧ score.midi? note = some pitch).toList

theorem mem_soundingOn {score : Score τ} {channel pitch note : Nat} :
    note ∈ score.soundingOn channel pitch ↔ ∃ i ∈ score.instruments,
      (∃ object ∈ i.timeline, object.symbol = .noteRest note) ∧
        i.midi.channel = channel ∧ score.midi? note = some pitch := by
  simp only [soundingOn, List.mem_flatMap, Option.mem_toList, Option.filter_eq_some_iff,
    decide_eq_true_eq, StaffSymbol.note?_eq_some_iff]
  constructor
  · rintro ⟨i, hi, object, hobject, hnote, hsound⟩
    exact ⟨i, hi, ⟨object, hobject, hnote⟩, hsound⟩
  · rintro ⟨i, hi, ⟨object, hobject, hnote⟩, hsound⟩
    exact ⟨i, hi, object, hobject, hnote, hsound⟩

end Score

/-! ## Counting events -/

theorem countP_flatMap_congr {α β γ : Type} {xs : List α} {f : α → List β} {g : α → List γ}
    {p : β → Bool} {q : γ → Bool} (h : ∀ x ∈ xs, (f x).countP p = (g x).countP q) :
    (xs.flatMap f).countP p = (xs.flatMap g).countP q := by
  induction xs with
  | nil => rfl
  | cons x xs ih =>
      obtain ⟨hx, hxs⟩ := List.forall_mem_cons.mp h
      rw [List.flatMap_cons, List.flatMap_cons, List.countP_append, List.countP_append, hx, ih hxs]

theorem flatMap_zipIdx_fst {α β : Type} (xs : List α) (f : α → List β) :
    xs.zipIdx.flatMap (fun x => f x.1) = xs.flatMap f := by
  rw [← List.flatMap_map Prod.fst f, List.zipIdx_map_fst]

/-- The sound of a note has started, or goes on, in another note. -/
def Score.isTied (score : Score τ) : EventKind → Nat → Bool
  | .noteOn => score.soundStarted
  | _ => score.soundGoesOn

section

variable [TimeValue τ] {score : Score τ} {kind : EventKind} {channel pitch : Nat}

theorem countP_objectEvents (hkind : kind = .noteOn ∨ kind = .noteOff) (midi : MidiInfo)
    (object : StaffObject τ) (ref : ObjectRef) :
    (objectEvents score midi object ref).countP
        (fun e => e.kind = kind ∧ e.channel = channel ∧ e.pitch = pitch) =
      (object.symbol.note?.filter fun note =>
        midi.channel = channel ∧ score.midi? note = some pitch).toList.countP
          fun note => !score.isTied kind note := by
  unfold objectEvents
  split
  · next number hsymbol =>
    rw [hsymbol, StaffSymbol.note?, Option.filter_some]
    split
    · next hnote => simp [Score.midi?, hnote]
    · next note hnote =>
      split
      · next p hpitch =>
        have hmidi : score.midi? number = some p.midi := by simp [Score.midi?, hnote, hpitch]
        by_cases hsound : midi.channel = channel ∧ p.midi = pitch
        · obtain ⟨rfl, rfl⟩ := hsound
          rcases hkind with rfl | rfl
          · cases score.soundGoesOn number <;> cases hstarted : score.soundStarted number <;>
              simp [hmidi, objectEvent, Score.isTied, hstarted]
          · cases score.soundStarted number <;> cases hgoesOn : score.soundGoesOn number <;>
              simp [hmidi, objectEvent, Score.isTied, hgoesOn]
        · have hnone : ¬ (midi.channel = channel ∧ score.midi? number = some pitch) := by
            rwa [hmidi, Option.some.injEq]
          rw [decide_eq_false hnone]
          simp [objectEvent, hsound]
      · next hpitch =>
        have hmidi : score.midi? number = none := by simp [Score.midi?, hnote, hpitch]
        rcases hkind with rfl | rfl <;> split <;> simp [hmidi, objectEvent]
  · next meter hsymbol =>
    rcases hkind with rfl | rfl <;> simp [hsymbol, StaffSymbol.note?, objectEvent]
  · next hnote _ => simp [StaffSymbol.note?_eq_none hnote]

/-- All notes on a channel and a pitch start there, but those whose sound has started before, and
they all stop there, but those whose sound goes on. -/
theorem countOn_ofScore (hkind : kind = .noteOn ∨ kind = .noteOff) :
    (SoundTable.ofScore score).countOn kind channel pitch =
      (score.soundingOn channel pitch).countP fun note => !score.isTied kind note := by
  have hevents : (SoundTable.ofScore score).countOn kind channel pitch =
      (unorderedEvents score).countP
        fun e => e.kind = kind ∧ e.channel = channel ∧ e.pitch = pitch := by
    rw [← (stableSort_perm (TimeValue.notAfter SoundEvent.time fun e => e.kind.rank)
      (unorderedEvents score)).countP_eq]
    show _ = (inEventOrder _).countP _
    rw [← map_withoutDelta_soundEvents, List.countP_map]
    rfl
  have hprograms : (score.instruments.map fun i => (programChange i.midi : SoundEvent τ)).countP
      (fun e => e.kind = kind ∧ e.channel = channel ∧ e.pitch = pitch) = 0 := by
    rcases hkind with rfl | rfl <;> simp [List.countP_eq_zero, programChange]
  have hend : [endOfScore score].countP
      (fun e => e.kind = kind ∧ e.channel = channel ∧ e.pitch = pitch) = 0 := by
    rcases hkind with rfl | rfl <;> simp [endOfScore]
  rw [hevents, unorderedEvents_eq, List.countP_append, List.countP_append, hprograms, hend,
    Nat.zero_add, Nat.add_zero, partEvents, Score.soundingOn,
    ← flatMap_zipIdx_fst score.instruments]
  refine countP_flatMap_congr fun entry _ => ?_
  obtain ⟨i, number⟩ := entry
  dsimp only
  rw [← flatMap_zipIdx_fst i.timeline, instrumentEvents, inTimeOrder,
    ((stableSort_perm _ i.timeline.zipIdx).flatMap_right _).countP_eq]
  exact countP_flatMap_congr fun entry _ =>
    countP_objectEvents hkind i.midi entry.1 ⟨number, entry.2⟩

/-- Whether as many sounds start as stop is a matter of the ties that the notes find. -/
theorem countOn_noteOn_add (score : Score τ) (channel pitch : Nat) :
    (SoundTable.ofScore score).countOn .noteOn channel pitch +
      (score.soundingOn channel pitch).countP score.soundStarted =
    (SoundTable.ofScore score).countOn .noteOff channel pitch +
      (score.soundingOn channel pitch).countP score.soundGoesOn := by
  have hon := (score.soundingOn channel pitch).length_eq_countP_add_countP score.soundStarted
  have hoff := (score.soundingOn channel pitch).length_eq_countP_add_countP score.soundGoesOn
  rw [countOn_ofScore (.inl rfl), countOn_ofScore (.inr rfl)]
  simp only [Score.isTied, Bool.not_eq_true, Bool.decide_eq_false] at hon hoff ⊢
  omega

end

/-! ## Ties that both notes find -/

namespace Score

/-- The notes of a tie, if they have the same pitch, either both find it as their first one or
neither, and they sound on the same channel. -/
def TiesAgree (score : Score τ) : Prop :=
  ∀ r ∈ score.relations, r.kind = .tie → ∀ a ∈ r.parts.head?, ∀ b ∈ r.parts.getLast?,
    score.sameKey a b = true →
      (score.tieAfter? a = some r ↔ score.tieBefore? b = some r) ∧
      ∀ i ∈ score.instruments, ∀ j ∈ score.instruments,
        (∃ object ∈ i.timeline, object.symbol = .noteRest a) →
          (∃ object ∈ j.timeline, object.symbol = .noteRest b) → i.midi.channel = j.midi.channel

instance (score : Score τ) : Decidable score.TiesAgree :=
  inferInstanceAs (Decidable (∀ _ ∈ _, _))

theorem sameKey_iff {score : Score τ} {a b : Nat} :
    score.sameKey a b = true ↔ ∃ pitch, score.midi? a = some pitch ∧ score.midi? b = some pitch := by
  unfold sameKey midi?
  cases score.notes[a]?.bind NoteRest.pitch <;> cases score.notes[b]?.bind NoteRest.pitch <;>
    simp [eq_comm]

theorem mem_relations_of_mem_relationsOf {score : Score τ} {note : Nat} {r : Relation}
    (h : r ∈ score.relationsOf note) : r ∈ score.relations := by
  unfold relationsOf at h
  split at h
  · obtain ⟨number, -, hr⟩ := List.mem_filterMap.mp h
    exact List.mem_of_getElem? hr
  · simp at h

theorem tie_of_tieAfter? {score : Score τ} {a : Nat} {r : Relation}
    (h : score.tieAfter? a = some r) :
    r ∈ score.relations ∧ r.kind = .tie ∧ r.parts.head? = some a := by
  have hr := List.find?_some h
  simp only [Bool.and_eq_true, decide_eq_true_eq] at hr
  exact ⟨mem_relations_of_mem_relationsOf (List.mem_of_find?_eq_some h), hr⟩

theorem tie_of_tieBefore? {score : Score τ} {b : Nat} {r : Relation}
    (h : score.tieBefore? b = some r) :
    r ∈ score.relations ∧ r.kind = .tie ∧ r.parts.getLast? = some b := by
  have hr := List.find?_some h
  simp only [Bool.and_eq_true, decide_eq_true_eq] at hr
  exact ⟨mem_relations_of_mem_relationsOf (List.mem_of_find?_eq_some h), hr⟩

/-- Both notes find the tie that joins them, so a sound goes on from the first to the second. -/
def SoundsThrough (score : Score τ) (a b : Nat) : Prop :=
  ∃ r, score.tieAfter? a = some r ∧ score.tieBefore? b = some r ∧ r.parts = [a, b] ∧
    score.sameKey a b = true

section

variable {score : Score τ}

theorem exists_soundsThrough_of_soundGoesOn (hagree : score.TiesAgree)
    (hpairs : ∀ r ∈ score.relations, r.kind = .tie → ∃ a b, r.parts = [a, b]) {a : Nat}
    (h : score.soundGoesOn a = true) : ∃ b, score.SoundsThrough a b := by
  obtain ⟨b, hb, hkey⟩ := (Option.any_eq_true _ _).mp h
  obtain ⟨r, hafter, hsecond⟩ := Option.bind_eq_some_iff.mp hb
  obtain ⟨hmem, htie, hhead⟩ := tie_of_tieAfter? hafter
  obtain ⟨x, y, hparts⟩ := hpairs r hmem htie
  obtain ⟨rfl, rfl⟩ : x = a ∧ y = b := by simpa [hparts] using And.intro hhead hsecond
  obtain ⟨hends, -⟩ := hagree r hmem htie x (by simp [hparts]) y (by simp [hparts]) hkey
  exact ⟨y, r, hafter, hends.mp hafter, hparts, hkey⟩

theorem exists_soundsThrough_of_soundStarted (hagree : score.TiesAgree)
    (hpairs : ∀ r ∈ score.relations, r.kind = .tie → ∃ a b, r.parts = [a, b]) {b : Nat}
    (h : score.soundStarted b = true) : ∃ a, score.SoundsThrough a b := by
  obtain ⟨a, ha, hkey⟩ := (Option.any_eq_true _ _).mp h
  obtain ⟨r, hbefore, hfirst⟩ := Option.bind_eq_some_iff.mp ha
  obtain ⟨hmem, htie, hlast⟩ := tie_of_tieBefore? hbefore
  obtain ⟨x, y, hparts⟩ := hpairs r hmem htie
  obtain ⟨rfl, rfl⟩ : x = a ∧ y = b := by simpa [hparts] using And.intro hfirst hlast
  obtain ⟨hends, -⟩ := hagree r hmem htie x (by simp [hparts]) y (by simp [hparts]) hkey
  exact ⟨x, r, hends.mpr hbefore, hbefore, hparts, hkey⟩

theorem SoundsThrough.soundGoesOn {a b : Nat} (h : score.SoundsThrough a b) :
    score.soundGoesOn a = true := by
  obtain ⟨r, hafter, -, hparts, hkey⟩ := h
  simp [Score.soundGoesOn, hafter, hparts, hkey]

theorem SoundsThrough.soundStarted {a b : Nat} (h : score.SoundsThrough a b) :
    score.soundStarted b = true := by
  obtain ⟨r, -, hbefore, hparts, hkey⟩ := h
  simp [Score.soundStarted, hbefore, hparts, hkey]

theorem SoundsThrough.left_unique {a a' b : Nat} (h : score.SoundsThrough a b)
    (h' : score.SoundsThrough a' b) : a = a' := by
  obtain ⟨r, -, hbefore, hparts, -⟩ := h
  obtain ⟨r', -, hbefore', hparts', -⟩ := h'
  obtain rfl : r = r' := Option.some.inj (hbefore.symm.trans hbefore')
  simpa using hparts.symm.trans hparts'

theorem SoundsThrough.right_unique {a b b' : Nat} (h : score.SoundsThrough a b)
    (h' : score.SoundsThrough a b') : b = b' := by
  obtain ⟨r, hafter, -, hparts, -⟩ := h
  obtain ⟨r', hafter', -, hparts', -⟩ := h'
  obtain rfl : r = r' := Option.some.inj (hafter.symm.trans hafter')
  simpa using hparts.symm.trans hparts'

end

/-! ### One channel -/

section

variable {score : Score τ} {channel pitch : Nat}

theorem soundingOn_nodup (hnumbers : score.noteNumbers = List.range score.notes.length) :
    (score.soundingOn channel pitch).Nodup := by
  have hsub : (score.soundingOn channel pitch).Sublist score.noteNumbers := by
    refine List.Sublist.flatMap_right _ fun i _ => ?_
    rw [List.filterMap_eq_flatMap_toList]
    refine List.Sublist.flatMap_right _ fun object _ => ?_
    cases object.symbol.note? with
    | none => exact .slnil
    | some note =>
        rw [Option.filter_some]
        split
        · exact .refl _
        · exact List.nil_sublist _
  exact (hnumbers ▸ List.nodup_range).sublist hsub

theorem exists_instrument_of_midi? (hnumbers : score.noteNumbers = List.range score.notes.length)
    {note : Nat} (h : score.midi? note = some pitch) :
    ∃ i ∈ score.instruments, ∃ object ∈ i.timeline, object.symbol = .noteRest note := by
  have hlt : note < score.notes.length := by
    by_contra hge
    simp [midi?, List.getElem?_eq_none (Nat.le_of_not_lt hge)] at h
  have hmem : note ∈ score.noteNumbers := by rwa [hnumbers, List.mem_range]
  obtain ⟨i, hi, hnote⟩ := List.mem_flatMap.mp hmem
  obtain ⟨object, hobject, hsymbol⟩ := List.mem_filterMap.mp hnote
  exact ⟨i, hi, object, hobject, StaffSymbol.note?_eq_some_iff.mp hsymbol⟩

/-- If two notes sound as one, they are on the same channel and pitch. -/
theorem SoundsThrough.mem_soundingOn_iff (hagree : score.TiesAgree)
    (hnumbers : score.noteNumbers = List.range score.notes.length) {a b : Nat}
    (h : score.SoundsThrough a b) :
    a ∈ score.soundingOn channel pitch ↔ b ∈ score.soundingOn channel pitch := by
  obtain ⟨r, hafter, -, hparts, hkey⟩ := h
  obtain ⟨hmem, htie, -⟩ := tie_of_tieAfter? hafter
  obtain ⟨-, hchannels⟩ := hagree r hmem htie a (by simp [hparts]) b (by simp [hparts]) hkey
  obtain ⟨p, hpa, hpb⟩ := sameKey_iff.mp hkey
  rw [mem_soundingOn, mem_soundingOn, hpa, hpb]
  constructor
  · rintro ⟨i, hi, hplays, hchannel, hpitch⟩
    obtain ⟨j, hj, hplays'⟩ := exists_instrument_of_midi? hnumbers hpb
    exact ⟨j, hj, hplays', hchannels i hi j hj hplays hplays' ▸ hchannel, hpitch⟩
  · rintro ⟨j, hj, hplays', hchannel, hpitch⟩
    obtain ⟨i, hi, hplays⟩ := exists_instrument_of_midi? hnumbers hpa
    exact ⟨i, hi, hplays, (hchannels i hi j hj hplays hplays').trans hchannel, hpitch⟩

theorem length_le_of_injective {as bs : List Nat} (has : as.Nodup) {r : Nat → Nat → Prop}
    (htotal : ∀ a ∈ as, ∃ b ∈ bs, r a b) (hunique : ∀ {a a' b}, r a b → r a' b → a = a') :
    as.length ≤ bs.length := by
  choose! f hmem hr using htotal
  have hinjective : (as.map f).Nodup :=
    has.map_on fun a ha a' ha' heq => hunique (hr a ha) (heq ▸ hr a' ha')
  have hsubset : as.map f ⊆ bs := List.forall_mem_map.mpr hmem
  simpa using (List.subperm_of_subset hinjective hsubset).length_le

/-- If the ties agree, as many sounds of a channel and a pitch have started in another note as go on
in another note. -/
theorem countP_soundStarted_eq (hagree : score.TiesAgree)
    (hpairs : ∀ r ∈ score.relations, r.kind = .tie → ∃ a b, r.parts = [a, b])
    (hnumbers : score.noteNumbers = List.range score.notes.length) :
    (score.soundingOn channel pitch).countP score.soundStarted =
      (score.soundingOn channel pitch).countP score.soundGoesOn := by
  have hnodup : (score.soundingOn channel pitch).Nodup := soundingOn_nodup hnumbers
  rw [List.countP_eq_length_filter, List.countP_eq_length_filter]
  refine Nat.le_antisymm ?_ ?_
  · refine length_le_of_injective (r := fun b a => score.SoundsThrough a b) (hnodup.filter _)
      (fun b hb => ?_) SoundsThrough.right_unique
    obtain ⟨hmem, hstarted⟩ := List.mem_filter.mp hb
    obtain ⟨a, ha⟩ := exists_soundsThrough_of_soundStarted hagree hpairs hstarted
    exact ⟨a, List.mem_filter.mpr
      ⟨(ha.mem_soundingOn_iff hagree hnumbers).mpr hmem, ha.soundGoesOn⟩, ha⟩
  · refine length_le_of_injective (r := score.SoundsThrough) (hnodup.filter _)
      (fun a ha => ?_) SoundsThrough.left_unique
    obtain ⟨hmem, hgoesOn⟩ := List.mem_filter.mp ha
    obtain ⟨b, hb⟩ := exists_soundsThrough_of_soundGoesOn hagree hpairs hgoesOn
    exact ⟨b, List.mem_filter.mpr
      ⟨(hb.mem_soundingOn_iff hagree hnumbers).mp hmem, hb.soundStarted⟩, hb⟩

end

end Score

/-- On each channel and pitch of an analysed score as many notes start as stop, if and only if as
many of them have started in another note as go on in another note. So it is if the ties agree. -/
theorem SoundTable.noteOns_eq_noteOffs [TimeValue τ] {settings : Settings} {tree : Node}
    {analysis : Analysis τ} (h : analyse settings tree = .ok analysis) {score : Score τ}
    (hs : score ∈ analysis.document.scores) (channel pitch : Nat) :
    ((ofScore score).countOn .noteOn channel pitch =
        (ofScore score).countOn .noteOff channel pitch ↔
      (score.soundingOn channel pitch).countP score.soundStarted =
        (score.soundingOn channel pitch).countP score.soundGoesOn) ∧
    (score.TiesAgree → (ofScore score).countOn .noteOn channel pitch =
      (ofScore score).countOn .noteOff channel pitch) := by
  have hadd := countOn_noteOn_add score channel pitch
  have hiff : (ofScore score).countOn .noteOn channel pitch =
      (ofScore score).countOn .noteOff channel pitch ↔
    (score.soundingOn channel pitch).countP score.soundStarted =
      (score.soundingOn channel pitch).countP score.soundGoesOn := by omega
  refine ⟨hiff, fun hagree => hiff.mpr ?_⟩
  exact Score.countP_soundStarted_eq hagree (fun r => exists_parts_of_tie h hs)
    (noteNumbers_of_analyse h hs)

/-- A sound that goes on through three notes, and a tie of two pitches that holds no sound. -/
def tiedChain : Node :=
  let here : Position := ⟨1, 1⟩
  let word (text : String) : Node := .atom .label text here
  let tie (role : String) : Node := .element .tie [word role] here
  let note (pitch : String) (ties : List Node) : Node :=
    .element .note ([word pitch, word "q"] ++ ties) here
  .element .score [.element .instrument [.element .music
    [note "c4" [tie "start"], note "c4" [tie "stop", tie "start"], note "c4" [tie "stop"],
      note "d4" [tie "start"], note "c4" [tie "stop"]] here] here] here

theorem noteOns_eq_noteOffs_tiedChain :
    ∃ analysis : Analysis Rat, analyse {} tiedChain = .ok analysis ∧
      ∃ score ∈ analysis.document.scores, score.TiesAgree ∧
        (SoundTable.ofScore score).countOn .noteOn 0 60 = 2 ∧
        (SoundTable.ofScore score).countOn .noteOn 0 60 =
          (SoundTable.ofScore score).countOn .noteOff 0 60 := by
  have h : (analyse {} tiedChain : Except CompileError (Analysis Rat)) = .ok _ := rfl
  refine ⟨_, h, _, List.mem_singleton.mpr rfl, by decide +kernel, by decide +kernel, ?_⟩
  exact (SoundTable.noteOns_eq_noteOffs h (List.mem_singleton.mpr rfl) 0 60).2 (by decide +kernel)

/-- A note with a tie to another pitch in front of one to its own pitch. -/
def twoTies : Node :=
  let here : Position := ⟨1, 1⟩
  let tie (key role : String) : Node :=
    .element .tie [.atom .number key here, .atom .label role here] here
  let note (pitch : String) (ties : List Node) : Node :=
    .element .note ([.atom .label pitch here, .atom .label "q" here] ++ ties) here
  .element .score [.element .instrument [.element .music
    [note "c4" [tie "1" "start", tie "2" "start"], note "d4" [tie "1" "stop"],
      note "c4" [tie "2" "stop"]] here] here] here

/-- Only the second note of the tie finds it, so the first one stops and the second one stops
again. -/
theorem noteOns_ne_noteOffs_twoTies :
    ∃ analysis : Analysis Rat, analyse {} twoTies = .ok analysis ∧
      ∃ score ∈ analysis.document.scores,
        (SoundTable.ofScore score).countOn .noteOn 0 60 = 1 ∧
        (SoundTable.ofScore score).countOn .noteOff 0 60 = 2 := by
  have h : (analyse {} twoTies : Except CompileError (Analysis Rat)) = .ok _ := rfl
  exact ⟨_, h, _, List.mem_singleton.mpr rfl, by decide +kernel, by decide +kernel⟩

end ScorePlayback
