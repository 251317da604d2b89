import Mathlib.Data.List.Forall2
import Mathlib.Data.List.Induction
import ScorePlayback.Relation.LegacyTie
import ScorePlayback.Time.Exact

/-! # What becomes of every legacy tie

A legacy tie waits for the next later note of its voice, until another one starts. Whatever happens,
it is either closed by that note or reported, and nothing happens to it twice. -/

namespace ScorePlayback

variable {τ : Type}

/-! ## Calls -/

/-- A note at a time, which a tie may have waited for. -/
structure TieOffer (τ : Type) where
  note : Nat
  time : τ

/-- What legacy ties can be told: that one starts, or that there is a note at a time. -/
inductive LegacyTieCall (τ : Type) where
  | start (tie : PendingTie τ)
  | offer (o : TieOffer τ)

namespace LegacyTieCall

def note : LegacyTieCall τ → Nat
  | .start tie => tie.note
  | .offer o => o.note

/-- What is offered before the next start. -/
def offers : List (LegacyTieCall τ) → List (TieOffer τ)
  | .offer o :: later => o :: offers later
  | _ => []

/-- All ties that start, in order, each with what is offered before the next one starts. -/
def waits : List (LegacyTieCall τ) → List (PendingTie τ × List (TieOffer τ))
  | [] => []
  | .start tie :: later => (tie, offers later) :: waits later
  | .offer _ :: later => waits later

end LegacyTieCall

namespace LegacyTie

open LegacyTieCall

/-! ## What ties wait for -/

section

variable (notes : List (NoteRest τ))

def IsPitched (note : Nat) : Prop := (notes[note]?.bind NoteRest.pitch).isSome

instance (note : Nat) : Decidable (IsPitched notes note) := inferInstanceAs (Decidable (_ = true))

/-- Two notes have the same step, octave and alteration. -/
def SoundSame (first second : Nat) : Prop :=
  ∃ p q, notes[first]?.bind NoteRest.pitch = some p ∧ notes[second]?.bind NoteRest.pitch = some q ∧
    p.step = q.step ∧ p.octave = q.octave ∧ p.alter = q.alter

variable [TimeValue τ]

/-- A note is later than a tie and of its voice. -/
def isNext (tie : PendingTie τ) (o : TieOffer τ) : Bool :=
  !TimeValue.le o.time tie.time && notes[o.note]?.map NoteRest.voice = some tie.voice

/-- What becomes of a tie: it is closed or reported, and it is closed by the first note that it can
wait for, if both sound the same. -/
structure Resolves (wait : PendingTie τ × List (TieOffer τ)) (outcome : Nat × Nat ⊕ Diagnostic) :
    Prop where
  once : (∃ second, outcome = .inl (wait.1.note, second)) ∨
    ∃ d, outcome = .inr d ∧ d.kind = .invalidLegacyTie ∧ d.position = some wait.1.position
  tied : ∀ second, outcome = .inl (wait.1.note, second) ↔
    ∃ o, wait.2.find? (isNext notes wait.1) = some o ∧ o.note = second ∧
      SoundSame notes wait.1.note second

/-! ## Runs -/

def tell (t : LegacyTie τ) : LegacyTieCall τ → Resolution (LegacyTie τ) (Nat × Nat)
  | .start tie => t.start tie
  | .offer o => t.offer notes o.note o.time

/-- What waits behind some calls. -/
def after (t : LegacyTie τ) (calls : List (LegacyTieCall τ)) : LegacyTie τ :=
  calls.foldl (fun t call => (t.tell notes call).state) t

/-- The pairs of notes that are tied by some calls and the end of everything, and what is reported,
in order. -/
def outcomes (t : LegacyTie τ) : List (LegacyTieCall τ) → List (Nat × Nat ⊕ Diagnostic)
  | [] => t.finish.map .inr
  | call :: later =>
    (t.tell notes call).closed.toList.map .inl ++ (t.tell notes call).diagnostics.map .inr ++
      outcomes (t.tell notes call).state later

end

variable {notes : List (NoteRest τ)}

theorem SoundSame.isPitched {first second : Nat} (h : SoundSame notes first second) :
    IsPitched notes first ∧ IsPitched notes second := by
  obtain ⟨p, q, hp, hq, -⟩ := h
  exact ⟨Option.isSome_of_eq_some hp, Option.isSome_of_eq_some hq⟩

variable [TimeValue τ]

/-! ## One call -/

/-- All that can come of an offer. Notes without pitches end a tie silently. -/
inductive Offered (notes : List (NoteRest τ)) (t : LegacyTie τ) (o : TieOffer τ) :
    Resolution (LegacyTie τ) (Nat × Nat) → Prop where
  | alone (hpending : t.pending = none) : Offered notes t o { state := t }
  | skipped {tie : PendingTie τ} (hpending : t.pending = some tie)
      (hnext : isNext notes tie o = false) : Offered notes t o { state := t }
  | joined {tie : PendingTie τ} (hpending : t.pending = some tie)
      (hnext : isNext notes tie o = true) (hsame : SoundSame notes tie.note o.note) :
      Offered notes t o { state := {}, closed := some (tie.note, o.note) }
  | missed {tie : PendingTie τ} (hpending : t.pending = some tie)
      (hnext : isNext notes tie o = true) (hsame : ¬SoundSame notes tie.note o.note)
      (first second : Pitch) :
      Offered notes t o
        { state := {}
          diagnostics := [(LegacyFault.tieMisses first second).diagnostic tie.position] }
  | silent {tie : PendingTie τ} (hpending : t.pending = some tie)
      (hnext : isNext notes tie o = true)
      (hpitched : ¬(IsPitched notes tie.note ∧ IsPitched notes o.note)) :
      Offered notes t o { state := {} }

theorem offered_join {t : LegacyTie τ} {tie : PendingTie τ} {o : TieOffer τ}
    {candidate : NoteRest τ} (hpending : t.pending = some tie)
    (hnext : isNext notes tie o = true) (hcandidate : notes[o.note]? = some candidate) :
    Offered notes t o (join notes tie o.note candidate) := by
  have hpitch : notes[o.note]?.bind NoteRest.pitch = candidate.pitch := by
    rw [hcandidate, Option.bind_some]
  unfold join
  split
  · next first second hfirst hsecond =>
    have hsame : SoundSame notes tie.note o.note ↔ first.sameSound second = true := by
      simp [SoundSame, hfirst, hpitch, hsecond, Pitch.sameSound, and_assoc]
    split
    · next h => exact .joined hpending hnext (hsame.mpr h)
    · next h => exact .missed hpending hnext (mt hsame.mp h) first second
  · next hnone =>
    refine .silent hpending hnext ?_
    rintro ⟨htie, ho⟩
    obtain ⟨first, hfirst⟩ := Option.isSome_iff_exists.mp htie
    obtain ⟨second, hsecond⟩ := Option.isSome_iff_exists.mp ho
    exact hnone first second hfirst (hpitch.symm.trans hsecond)

theorem offered_offer (notes : List (NoteRest τ)) (t : LegacyTie τ) (o : TieOffer τ) :
    Offered notes t o (t.offer notes o.note o.time) := by
  unfold offer
  cases hpending : t.pending with
  | none => exact .alone hpending
  | some tie =>
      cases hcandidate : notes[o.note]? with
      | none => exact .skipped hpending (by simp [isNext, hcandidate])
      | some candidate =>
          have hreaches : reaches tie candidate o.time = isNext notes tie o := by
            simp [isNext, reaches, hcandidate]
          simp only [hreaches]
          cases hnext : isNext notes tie o with
          | false => exact .skipped hpending hnext
          | true => exact offered_join hpending hnext hcandidate

/-- A tie waits as long as no offer is what it waits for. -/
theorem pending_offer (t : LegacyTie τ) (o : TieOffer τ) :
    (t.offer notes o.note o.time).state.pending =
      t.pending.filter fun tie => !isNext notes tie o := by
  have h := offered_offer notes t o
  generalize t.offer notes o.note o.time = told at h ⊢
  cases h with
  | alone hpending => simp [hpending]
  | skipped hpending hnext => simp [hpending, hnext, Option.filter]
  | joined hpending hnext | missed hpending hnext | silent hpending hnext =>
      simp [hpending, hnext, Option.filter]

/-- An offer ties two notes if the first one waits for the second one and both sound the same. -/
theorem closed_offer_iff {t : LegacyTie τ} {o : TieOffer τ} {pair : Nat × Nat} :
    (t.offer notes o.note o.time).closed = some pair ↔
      ∃ tie, t.pending = some tie ∧ isNext notes tie o = true ∧
        SoundSame notes tie.note o.note ∧ pair = (tie.note, o.note) := by
  have h := offered_offer notes t o
  generalize t.offer notes o.note o.time = told at h ⊢
  cases h with
  | alone hpending => simp [hpending]
  | skipped hpending hnext => simp [hpending, hnext]
  | @joined tie hpending hnext hsame =>
      constructor
      · rintro ⟨⟩
        exact ⟨tie, hpending, hnext, hsame, rfl⟩
      · rintro ⟨tie', hpending', -, -, rfl⟩
        rw [Option.some.inj (hpending.symm.trans hpending')]
  | missed hpending hnext hsame => simp [hpending, hsame]
  | silent hpending hnext hpitched =>
      have hsame := mt SoundSame.isPitched hpitched
      simp [hpending, hsame]

/-! ## What waits -/

theorem after_concat (t : LegacyTie τ) (calls : List (LegacyTieCall τ)) (call : LegacyTieCall τ) :
    t.after notes (calls ++ [call]) = ((t.after notes calls).tell notes call).state := by
  rw [after, List.foldl_concat]
  rfl

theorem pending_after_start (t : LegacyTie τ) (earlier : List (LegacyTieCall τ))
    (tie : PendingTie τ) (between : List (TieOffer τ)) :
    (t.after notes (earlier ++ .start tie :: between.map .offer)).pending =
      if between.all fun o => !isNext notes tie o then some tie else none := by
  induction between using List.reverseRecOn with
  | nil =>
      rw [List.map_nil, after_concat]
      rfl
  | append_singleton between o ih =>
      rw [List.map_append, List.map_singleton, ← List.cons_append, ← List.append_assoc,
        after_concat, tell, pending_offer, ih]
      cases h : between.all fun o => !isNext notes tie o <;> simp [h, Option.filter]

/-- What waits is the tie that has started last, if no offer since is what it waits for. -/
theorem pending_after_iff {calls : List (LegacyTieCall τ)} {tie : PendingTie τ} :
    (after notes {} calls).pending = some tie ↔
      ∃ earlier, ∃ between : List (TieOffer τ),
        calls = earlier ++ .start tie :: between.map .offer ∧
          ∀ o ∈ between, isNext notes tie o = false := by
  constructor
  · intro h
    induction calls using List.reverseRecOn with
    | nil => cases h
    | append_singleton calls call ih =>
        rw [after_concat] at h
        cases call with
        | start next =>
            obtain rfl : next = tie := Option.some.inj h
            exact ⟨calls, [], rfl, nofun⟩
        | offer o =>
            rw [tell, pending_offer, Option.filter_eq_some_iff] at h
            obtain ⟨earlier, between, rfl, hbetween⟩ := ih h.1
            refine ⟨earlier, between ++ [o], by simp, ?_⟩
            intro o' ho'
            rcases List.mem_append.mp ho' with ho' | ho'
            · exact hbetween o' ho'
            · obtain rfl := List.mem_singleton.mp ho'
              simpa using h.2
  · rintro ⟨earlier, between, rfl, hbetween⟩
    rw [pending_after_start, if_pos]
    simpa using hbetween

/-! ## All calls -/

section

variable {tie : PendingTie τ} {between : List (TieOffer τ)}

theorem resolves_tied {o : TieOffer τ} (hfind : between.find? (isNext notes tie) = some o)
    (hsame : SoundSame notes tie.note o.note) :
    Resolves notes (tie, between) (.inl (tie.note, o.note)) where
  once := .inl ⟨o.note, rfl⟩
  tied second := by
    constructor
    · rintro ⟨⟩
      exact ⟨o, hfind, rfl, hsame⟩
    · rintro ⟨o', hfind', rfl, -⟩
      rw [Option.some.inj (hfind.symm.trans hfind')]

theorem resolves_reported (fault : LegacyFault) (hkind : fault.kind = .invalidLegacyTie)
    (h : ∀ o, between.find? (isNext notes tie) = some o → ¬SoundSame notes tie.note o.note) :
    Resolves notes (tie, between) (.inr (fault.diagnostic tie.position)) where
  once := .inr ⟨_, rfl, hkind, rfl⟩
  tied second := by
    refine iff_of_false nofun ?_
    rintro ⟨o, hfind, rfl, hsame⟩
    exact h o hfind hsame

/-- An offer that a tie does not wait for is as good as none. -/
theorem Resolves.cons {outcome : Nat × Nat ⊕ Diagnostic} {o : TieOffer τ}
    (h : Resolves notes (tie, between) outcome) (hnext : isNext notes tie o = false) :
    Resolves notes (tie, o :: between) outcome where
  once := h.once
  tied second := by
    rw [List.find?_cons_of_neg (by simp [hnext])]
    exact h.tied second

end

/-- Whether a tie waits in front of the calls or not, all that start are resolved, and so is this
one. -/
theorem forall₂_outcomes {calls : List (LegacyTieCall τ)}
    (h : ∀ call ∈ calls, IsPitched notes call.note) :
    List.Forall₂ (Resolves notes) (waits calls) (outcomes notes {} calls) ∧
      ∀ tie : PendingTie τ, IsPitched notes tie.note →
        List.Forall₂ (Resolves notes) ((tie, offers calls) :: waits calls)
          (outcomes notes ⟨some tie⟩ calls) := by
  induction calls with
  | nil => exact ⟨.nil, fun tie _ => .cons (resolves_reported .tieAlone rfl nofun) .nil⟩
  | cons call later ih =>
      rw [List.forall_mem_cons] at h
      obtain ⟨hnone, hsome⟩ := ih h.2
      cases call with
      | start next =>
          refine ⟨hsome next h.1, fun tie _ => ?_⟩
          exact .cons (resolves_reported .tieReplaced rfl nofun) (hsome next h.1)
      | offer o =>
          refine ⟨hnone, fun tie htie => ?_⟩
          have hoffer : Offered notes ⟨some tie⟩ o (tell notes ⟨some tie⟩ (.offer o)) :=
            offered_offer notes _ o
          rw [outcomes]
          generalize tell notes ⟨some tie⟩ (.offer o) = told at hoffer ⊢
          cases hoffer with
          | alone hpending => cases hpending
          | skipped hpending hnext =>
              -- the tie waits on, and what becomes of it is the first outcome of the other calls
              obtain rfl := Option.some.inj hpending
              obtain ⟨outcome, rest, hresolves, hrest, heq⟩ :=
                List.forall₂_cons_left_iff.mp (hsome _ htie)
              simp only [Option.toList_none, List.map_nil, List.nil_append, heq]
              exact .cons (hresolves.cons hnext) hrest
          | joined hpending hnext hsame =>
              obtain rfl := Option.some.inj hpending
              exact .cons (resolves_tied (List.find?_cons_of_pos hnext) hsame) hnone
          | missed hpending hnext hsame first second =>
              obtain rfl := Option.some.inj hpending
              refine .cons (resolves_reported (.tieMisses first second) rfl ?_) hnone
              intro o' hfind
              rw [offers, List.find?_cons_of_pos hnext] at hfind
              rwa [← Option.some.inj hfind]
          | silent hpending hnext hpitched =>
              obtain rfl := Option.some.inj hpending
              exact absurd ⟨htie, h.1⟩ hpitched

/-! ### Offers without effect -/

theorem offer_of_not_isNext {t : LegacyTie τ} {o : TieOffer τ}
    (h : ∀ tie, t.pending = some tie → isNext notes tie o = false) :
    t.offer notes o.note o.time = { state := t } := by
  have hoffer := offered_offer notes t o
  generalize t.offer notes o.note o.time = told at hoffer ⊢
  cases hoffer with
  | alone | skipped => rfl
  | joined hpending hnext | missed hpending hnext | silent hpending hnext =>
      rw [h _ hpending] at hnext
      cases hnext

theorem outcomes_append_congr {t : LegacyTie τ} {earlier calls calls' : List (LegacyTieCall τ)}
    (h : outcomes notes (t.after notes earlier) calls =
      outcomes notes (t.after notes earlier) calls') :
    outcomes notes t (earlier ++ calls) = outcomes notes t (earlier ++ calls') := by
  induction earlier generalizing t with
  | nil => exact h
  | cons call earlier ih => simp only [List.cons_append, outcomes, ih h]

/-- A note that the latest tie does not wait for might as well not be offered. -/
theorem outcomes_without (t : LegacyTie τ) (earlier : List (LegacyTieCall τ)) (tie : PendingTie τ)
    (between : List (TieOffer τ)) {o : TieOffer τ} (hnext : isNext notes tie o = false)
    (later : List (LegacyTieCall τ)) :
    outcomes notes t (earlier ++ .start tie :: between.map .offer ++ .offer o :: later) =
      outcomes notes t (earlier ++ .start tie :: between.map .offer ++ later) := by
  refine outcomes_append_congr ?_
  generalize hafter : t.after notes (earlier ++ .start tie :: between.map .offer) = waiting
  have hoffer : waiting.offer notes o.note o.time = { state := waiting } := by
    refine offer_of_not_isNext fun tie' h => ?_
    rw [← hafter, pending_after_start] at h
    split at h
    · rwa [← Option.some.inj h]
    · cases h
  simp [outcomes, tell, hoffer]

/-! ### Every tie -/

/-- What becomes of the ties that start in some calls. -/
structure AreResolved (notes : List (NoteRest τ)) (calls : List (LegacyTieCall τ)) : Prop where
  /-- In the order of their starts, the ties are closed or reported, each once. -/
  each : List.Forall₂ (Resolves notes) (waits calls) (outcomes notes {} calls)
  /-- A tie is closed with the call for its second note. -/
  paired : ∀ earlier o later, calls = earlier ++ .offer o :: later → ∀ pair,
    ((after notes {} earlier).offer notes o.note o.time).closed = some pair ↔
      ∃ before tie, ∃ between : List (TieOffer τ),
        earlier = before ++ .start tie :: between.map .offer ∧
          (∀ o' ∈ between, isNext notes tie o' = false) ∧ isNext notes tie o = true ∧
          SoundSame notes tie.note o.note ∧ pair = (tie.note, o.note)
  /-- Nothing comes of notes of other voices and of notes that are not later. -/
  others : ∀ earlier tie o later, ∀ between : List (TieOffer τ),
    calls = earlier ++ .start tie :: between.map .offer ++ .offer o :: later →
      TimeValue.le o.time tie.time = true ∨ notes[o.note]?.map NoteRest.voice ≠ some tie.voice →
        outcomes notes {} calls =
          outcomes notes {} (earlier ++ .start tie :: between.map .offer ++ later)

/-- No tie between notes with pitches is lost, resolved twice or closed by another note than the one
that it waits for. -/
theorem areResolved {calls : List (LegacyTieCall τ)}
    (h : ∀ call ∈ calls, IsPitched notes call.note) : AreResolved notes calls where
  each := (forall₂_outcomes h).1
  paired := by
    rintro earlier o later - pair
    simp only [closed_offer_iff, pending_after_iff]
    constructor
    · rintro ⟨tie, ⟨before, between, hearlier, hbetween⟩, h⟩
      exact ⟨before, tie, between, hearlier, hbetween, h⟩
    · rintro ⟨before, tie, between, hearlier, hbetween, h⟩
      exact ⟨tie, ⟨before, between, hearlier, hbetween⟩, h⟩
  others := by
    rintro earlier tie o later between rfl hother
    refine outcomes_without {} earlier tie between ?_ later
    rcases hother with hother | hother <;> simp [isNext, hother]

/-- In two voices, `c4` is tied across an `e4`, and the tie from its second note is never closed. -/
theorem areResolved_acrossVoices :
    let notes := [(Step.c, 1), (Step.e, 2), (Step.c, 1)].map fun (step, voice) =>
      ({ pitch := some ⟨step, 4, none, 0⟩, written := ⟨.quarter, 0⟩, duration := 64, visible := true
         voice, staff := 1, inChord := false, position := ⟨1, 1⟩ } : NoteRest Rat)
    let calls := [.start ⟨0, 0, 1, ⟨1, 1⟩⟩, .offer ⟨1, 64⟩, .offer ⟨2, 128⟩,
      .start ⟨2, 128, 1, ⟨2, 1⟩⟩]
    (∀ call ∈ calls, IsPitched notes call.note) ∧ AreResolved notes calls ∧
      outcomes notes {} calls = [.inl (0, 2),
        .inr ⟨.invalidLegacyTie, some ⟨2, 1⟩, "legacy tie has no following note"⟩] :=
  ⟨by decide, areResolved (by decide), by decide +kernel⟩

end LegacyTie

end ScorePlayback
