import Mathlib.Data.List.DropRight
import ScorePlayback.Proofs.Keyed
import ScorePlayback.Relation.Registry

/-! # Open relations and what a registry has been told

A registry keeps the relations that are open and forgets everything else. What it keeps under a key
can be read off its history: it is the latest marker that starts or ends a relation with the key, if
this one starts it, and all that has gone on with it since. -/

namespace ScorePlayback

/-! ## The four kinds of relations -/

namespace RelationKind

/-- What a marker says beyond its role. -/
abbrev Payload : RelationKind → Type
  | .tie => Unit
  | .slur => Unit
  | .beam => List BeamSegment
  | .tuplet => Option TupletSpec

def rules : (kind : RelationKind) → RelationRules kind.Payload
  | .tie => .tie
  | .slur => .slur
  | .beam => .beam
  | .tuplet => .tuplet

/-- What is kept of a relation, from its start. Tuplets are triplets unless the start says more. -/
def dataOf : (kind : RelationKind) → kind.Payload → RelationData
  | .tie, _ => .tie
  | .slur, _ => .slur
  | .beam, _ => .beam
  | .tuplet, spec => .tuplet (spec.getD ⟨3, 2, true, true⟩)

@[simp] theorem kind_rules (kind : RelationKind) : kind.rules.kind = kind := by cases kind <;> rfl

theorem data_rules (kind : RelationKind) (start : Endpoint kind.Payload) :
    kind.rules.data start = kind.dataOf start.payload := by cases kind <;> rfl

end RelationKind

/-! ## Histories -/

/-- What a registry can be told: that there is a marker, with the pitches of the notes so far, or a
note that goes on with everything that is open. -/
inductive RegistryCall (π : Type) where
  | mark (e : Endpoint π) (pitchOf : Nat → Option Pitch)
  | continueAll (note : Nat) (position : Position)

namespace RegistryCall

variable {π : Type}

/-- A marker that starts or ends a relation with a key. -/
def bound? (key : Nat) : RegistryCall π → Option (Endpoint π)
  | .mark e _ => if e.key = key ∧ e.role ≠ .continues then some e else none
  | .continueAll .. => none

/-- What goes on with a relation with a key. -/
def joint? (implied : π) (key : Nat) : RegistryCall π → Option (Endpoint π)
  | .mark e _ => if e.key = key ∧ e.role = .continues then some e else none
  | .continueAll note position => some ⟨key, .continues, note, position, implied⟩

/-- Only markers with other keys are not about a key. -/
def isFor (key : Nat) : RegistryCall π → Bool
  | .mark e _ => e.key = key
  | .continueAll .. => true

/-- The latest marker that starts or ends a relation with a key. -/
def latest? (key : Nat) (history : List (RegistryCall π)) : Option (Endpoint π) :=
  (history.filterMap (bound? key)).getLast?

/-- All that has gone on with a relation with a key since the latest one that has started or ended,
in order. -/
def since (implied : π) (key : Nat) (history : List (RegistryCall π)) : List (Endpoint π) :=
  (history.rtakeWhile fun call => (call.bound? key).isNone).filterMap (joint? implied key)

/-- The part of a history that is about a key. -/
def own (key : Nat) (history : List (RegistryCall π)) : List (RegistryCall π) :=
  history.filter (isFor key)

/-- What a history leaves open under a key. -/
def leftOpen (implied : π) (key : Nat) (history : List (RegistryCall π)) :
    Option (OpenRelation π) :=
  ((latest? key history).filter fun start => start.role = .starts).map fun start =>
    ⟨start, since implied key history⟩

end RegistryCall

def OpenRelation.goOn {π : Type} (o : OpenRelation π) (e : Endpoint π) : OpenRelation π :=
  ⟨o.start, o.later ++ [e]⟩

/-- What one more call makes of what is open under a key. -/
def RegistryCall.change {π : Type} (implied : π) (key : Nat) (call : RegistryCall π)
    (before : Option (OpenRelation π)) : Option (OpenRelation π) :=
  match call.bound? key with
  | some e => if e.role = .starts then some ⟨e, []⟩ else none
  | none =>
    match call.joint? implied key with
    | some e => before.map (·.goOn e)
    | none => before

namespace Registry

variable {π : Type}

def tell (rules : RelationRules π) (r : Registry π) :
    RegistryCall π → Resolution (Registry π) (ClosedRelation π)
  | .mark e pitchOf => r.mark rules pitchOf e
  | .continueAll note position => { state := r.continueAll rules note position }

/-- The registry behind a history, empty at first. -/
def after (rules : RelationRules π) (history : List (RegistryCall π)) : Registry π :=
  history.foldl (fun r call => (r.tell rules call).state) {}

end Registry

/-! ### Turns -/

/-- A call, with the registry that is told it. -/
structure RegistryTurn (π : Type) where
  registry : Registry π
  call : RegistryCall π

def RegistryTurn.told {π : Type} (rules : RelationRules π) (t : RegistryTurn π) :
    Resolution (Registry π) (ClosedRelation π) := t.registry.tell rules t.call

namespace Registry

variable {π : Type}

/-- All turns, from the first call to the last. -/
def turns (rules : RelationRules π) (r : Registry π) : List (RegistryCall π) →
    List (RegistryTurn π)
  | [] => []
  | call :: calls => ⟨r, call⟩ :: turns rules (r.tell rules call).state calls

/-- All relations that close in some turns. -/
def closedIn (rules : RelationRules π) (ts : List (RegistryTurn π)) : List (ClosedRelation π) :=
  ts.flatMap fun t => (t.told rules).closed.toList

/-! ## One marker -/

/-- All that can come of a marker: a start opens a relation, perhaps in the place of another one, a
continuation and an end need one that is open. -/
inductive Marked (rules : RelationRules π) (pitchOf : Nat → Option Pitch) (r : Registry π)
    (e : Endpoint π) : Resolution (Registry π) (ClosedRelation π) → Prop where
  | starts (hrole : e.role = .starts) (hfind : Keyed.find? e.key r.pending = none) :
      Marked rules pitchOf r e { state := ⟨Keyed.insert e.key ⟨e, []⟩ r.pending⟩ }
  | startsAgain {o : OpenRelation π} (hrole : e.role = .starts)
      (hfind : Keyed.find? e.key r.pending = some o) :
      Marked rules pitchOf r e
        { state := ⟨Keyed.insert e.key ⟨e, []⟩ r.pending⟩
          diagnostics :=
            [(RelationFault.startedAgain rules.kind e.key o.start.position.line).diagnostic
              e.position] }
  | continues {o : OpenRelation π} (hrole : e.role = .continues)
      (hfind : Keyed.find? e.key r.pending = some o) :
      Marked rules pitchOf r e { state := ⟨Keyed.insert e.key (o.goOn e) r.pending⟩ }
  | continuesNone (hrole : e.role = .continues) (hfind : Keyed.find? e.key r.pending = none) :
      Marked rules pitchOf r e
        { state := r
          diagnostics :=
            [(RelationFault.continuedUnstarted rules.kind e.key).diagnostic e.position] }
  | ends {o : OpenRelation π} (hrole : e.role = .ends)
      (hfind : Keyed.find? e.key r.pending = some o) :
      Marked rules pitchOf r e
        { state := ⟨Keyed.erase e.key r.pending⟩
          closed := some (closing rules o e)
          diagnostics := (rules.objection (pitchOf o.start.note) (pitchOf e.note)).toList.map
            fun fault => fault.diagnostic e.position }
  | endsNone (hrole : e.role = .ends) (hfind : Keyed.find? e.key r.pending = none) :
      Marked rules pitchOf r e
        { state := r
          diagnostics := [(RelationFault.closedUnstarted rules.kind e.key).diagnostic e.position] }

theorem marked_mark (rules : RelationRules π) (pitchOf : Nat → Option Pitch) (r : Registry π)
    (e : Endpoint π) : Marked rules pitchOf r e (r.mark rules pitchOf e) := by
  unfold mark
  cases hrole : e.role with
  | starts =>
      unfold markStart
      cases hfind : Keyed.find? e.key r.pending with
      | none => exact .starts hrole hfind
      | some o => exact .startsAgain hrole hfind
  | continues =>
      simp only [markContinue]
      cases hfind : Keyed.find? e.key r.pending with
      | none => exact .continuesNone hrole hfind
      | some o => exact .continues hrole hfind
  | ends =>
      simp only [markEnd]
      cases hfind : Keyed.find? e.key r.pending with
      | none => exact .endsNone hrole hfind
      | some o => exact .ends hrole hfind

namespace Marked

variable {rules : RelationRules π} {pitchOf : Nat → Option Pitch} {r : Registry π} {e : Endpoint π}
  {told : Resolution (Registry π) (ClosedRelation π)}

theorem find?_of_ne (h : Marked rules pitchOf r e told) {key : Nat} (hkey : key ≠ e.key) :
    Keyed.find? key told.state.pending = Keyed.find? key r.pending := by
  cases h with
  | starts | startsAgain | continues => exact Keyed.find?_insert_of_ne hkey _ _
  | ends => exact Keyed.find?_erase_of_ne hkey _
  | continuesNone | endsNone => rfl

theorem find?_self (h : Marked rules pitchOf r e told) :
    Keyed.find? e.key told.state.pending =
      match e.role with
      | .starts => some ⟨e, []⟩
      | .continues => (Keyed.find? e.key r.pending).map (·.goOn e)
      | .ends => none := by
  cases h with
  | starts hrole | startsAgain hrole => simp [hrole, Keyed.find?_insert_self]
  | continues hrole hfind => simp [hrole, hfind, Keyed.find?_insert_self]
  | continuesNone hrole hfind => simp [hrole, hfind]
  | ends hrole => simp [hrole, Keyed.find?_erase_self]
  | endsNone hrole hfind => simp [hrole, hfind]

/-- Only an end closes a relation, the one that is open under its key. -/
theorem closed_eq (h : Marked rules pitchOf r e told) : told.closed =
    if e.role = .ends then (Keyed.find? e.key r.pending).map (closing rules · e) else none := by
  cases h with
  | starts hrole | startsAgain hrole | continues hrole | continuesNone hrole => simp [hrole]
  | ends hrole hfind | endsNone hrole hfind => simp [hrole, hfind]

end Marked

theorem closed_mark (rules : RelationRules π) (pitchOf : Nat → Option Pitch) (r : Registry π)
    (e : Endpoint π) : (r.mark rules pitchOf e).closed =
      if e.role = .ends then (Keyed.find? e.key r.pending).map (closing rules · e) else none :=
  (marked_mark rules pitchOf r e).closed_eq

/-- What a marker closes and what is wrong with it depend on nothing else than what is open under
its key. -/
theorem mark_congr (rules : RelationRules π) (pitchOf : Nat → Option Pitch) {r r' : Registry π}
    {e : Endpoint π} (h : Keyed.find? e.key r.pending = Keyed.find? e.key r'.pending) :
    (r.mark rules pitchOf e).closed = (r'.mark rules pitchOf e).closed ∧
      (r.mark rules pitchOf e).diagnostics = (r'.mark rules pitchOf e).diagnostics := by
  refine ⟨by rw [closed_mark, closed_mark, h], ?_⟩
  unfold mark
  cases e.role with
  | starts => simp only [markStart, h]
  | continues =>
      simp only [markContinue, h]
      split <;> rfl
  | ends =>
      simp only [markEnd, h]
      split <;> rfl

/-! ## One call -/

theorem find?_continueAll (rules : RelationRules π) (r : Registry π) (note : Nat)
    (position : Position) (key : Nat) :
    Keyed.find? key (r.continueAll rules note position).pending =
      (Keyed.find? key r.pending).map
        (·.goOn ⟨key, .continues, note, position, rules.implied⟩) := by
  simp only [continueAll]
  induction r.pending with
  | nil => rfl
  | cons entry rest ih =>
      obtain ⟨k, o⟩ := entry
      by_cases hkey : key = k
      · subst hkey
        simp [Keyed.find?, OpenRelation.goOn]
      · simpa [Keyed.find?, hkey] using ih

/-- A call changes what is open under a key in the way in which it is about the key. -/
theorem find?_tell (rules : RelationRules π) (r : Registry π) (call : RegistryCall π) (key : Nat) :
    Keyed.find? key (r.tell rules call).state.pending =
      call.change rules.implied key (Keyed.find? key r.pending) := by
  cases call with
  | continueAll note position => exact find?_continueAll rules r note position key
  | mark e pitchOf =>
      by_cases hkey : key = e.key
      · subst hkey
        refine (marked_mark rules pitchOf r e).find?_self.trans ?_
        cases hrole : e.role <;>
          simp [RegistryCall.change, RegistryCall.bound?, RegistryCall.joint?, hrole]
      · refine ((marked_mark rules pitchOf r e).find?_of_ne hkey).trans ?_
        simp [RegistryCall.change, RegistryCall.bound?, RegistryCall.joint?, Ne.symm hkey]

end Registry

/-! ## Histories that grow -/

namespace RegistryCall

variable {π : Type} (implied : π) (key : Nat) (history : List (RegistryCall π))
  (call : RegistryCall π)

section

variable {key history call}

theorem eq_mark_of_bound? {e : Endpoint π} (h : call.bound? key = some e) :
    e.key = key ∧ ∃ pitchOf, call = .mark e pitchOf := by
  cases call with
  | continueAll note position => cases h
  | mark e' pitchOf =>
      simp only [bound?] at h
      split at h
      · next hkey =>
        obtain rfl := Option.some.inj h
        exact ⟨hkey.1, pitchOf, rfl⟩
      · cases h

theorem mark_of_latest? {e : Endpoint π} (h : latest? key history = some e) :
    e.key = key ∧ ∃ pitchOf, .mark e pitchOf ∈ history := by
  obtain ⟨call, hcall, hbound⟩ := List.mem_filterMap.mp (List.mem_of_getLast? h)
  obtain ⟨hkey, pitchOf, rfl⟩ := eq_mark_of_bound? hbound
  exact ⟨hkey, pitchOf, hcall⟩

end

theorem latest?_concat :
    latest? key (history ++ [call]) = (call.bound? key).or (latest? key history) := by
  cases hbound : call.bound? key with
  | none => simp [latest?, hbound]
  | some e => simp [latest?, hbound]

theorem since_concat : since implied key (history ++ [call]) =
    if (call.bound? key).isNone then since implied key history ++ (call.joint? implied key).toList
    else [] := by
  by_cases h : (call.bound? key).isNone
  · cases hjoint : call.joint? implied key <;> simp [since, h, hjoint]
  · simp [since, h]

theorem leftOpen_concat : leftOpen implied key (history ++ [call]) =
    call.change implied key (leftOpen implied key history) := by
  unfold leftOpen change
  rw [latest?_concat, since_concat]
  cases hbound : call.bound? key with
  | some e => by_cases hrole : e.role = .starts <;> simp [Option.filter, hrole]
  | none =>
      cases hjoint : call.joint? implied key with
      | none => simp
      | some e => simp [Function.comp_def, OpenRelation.goOn]

/-- Markers with other keys change nothing. -/
theorem change_of_not_isFor {call : RegistryCall π} (h : call.isFor key = false)
    (before : Option (OpenRelation π)) : call.change implied key before = before := by
  cases call with
  | continueAll note position => cases h
  | mark e pitchOf =>
      have hkey : e.key ≠ key := by simpa [isFor] using h
      simp [change, bound?, joint?, hkey]

theorem leftOpen_own : leftOpen implied key (own key history) = leftOpen implied key history := by
  induction history using List.reverseRecOn with
  | nil => rfl
  | append_singleton history call ih =>
      rw [leftOpen_concat, own, List.filter_append]
      by_cases h : call.isFor key = true
      · rw [List.filter_cons_of_pos h, List.filter_nil, leftOpen_concat, ← own, ih]
      · rw [List.filter_cons_of_neg h, List.filter_nil, List.append_nil, ← own, ih,
          change_of_not_isFor implied key (by simpa using h)]

end RegistryCall

namespace Registry

variable {π : Type}

theorem after_concat (rules : RelationRules π) (history : List (RegistryCall π))
    (call : RegistryCall π) :
    after rules (history ++ [call]) = ((after rules history).tell rules call).state :=
  List.foldl_concat ..

/-- What is open behind a history is what it leaves open. -/
theorem find?_after (rules : RelationRules π) (history : List (RegistryCall π)) (key : Nat) :
    Keyed.find? key (after rules history).pending =
      RegistryCall.leftOpen rules.implied key history := by
  induction history using List.reverseRecOn with
  | nil => rfl
  | append_singleton history call ih =>
      rw [after_concat, find?_tell, ih, RegistryCall.leftOpen_concat]

open RegistryCall in
/-- A marker closes a relation if it ends one and the latest marker with its key that starts or ends
one starts it. The relation joins this start, what has gone on with it since, and the end. Markers
with other keys do not matter to this, nor to what is open. -/
theorem closes_iff_latest_starts (kind : RelationKind)
    (history : List (RegistryCall kind.Payload)) (e : Endpoint kind.Payload)
    (pitchOf : Nat → Option Pitch) :
    let told := (after kind.rules history).mark kind.rules pitchOf e
    (told.closed.isSome ↔
      e.role = .ends ∧ ∃ start, latest? e.key history = some start ∧ start.role = .starts) ∧
    (∀ c ∈ told.closed, ∃ start, latest? e.key history = some start ∧
      c.endpoints = start :: since kind.rules.implied e.key history ++ [e] ∧
      c.relation.parts = c.endpoints.map Endpoint.note ∧
      c.relation.kind = kind ∧ c.relation.data = kind.dataOf start.payload) ∧
    ∀ other, own e.key other = own e.key history →
      let told' := (after kind.rules other).mark kind.rules pitchOf e
      told'.closed = told.closed ∧ told'.diagnostics = told.diagnostics ∧
      Keyed.find? e.key (after kind.rules other).pending =
        Keyed.find? e.key (after kind.rules history).pending ∧
      Keyed.find? e.key told'.state.pending = Keyed.find? e.key told.state.pending := by
  intro told
  have hclosed : told.closed = if e.role = .ends then
      (leftOpen kind.rules.implied e.key history).map (closing kind.rules · e) else none := by
    rw [← find?_after]
    exact closed_mark kind.rules pitchOf _ e
  refine ⟨?_, ?_, ?_⟩
  · rw [hclosed]
    by_cases hrole : e.role = .ends
    · simp [hrole, leftOpen, Option.isSome_filter, Option.any_eq_true]
    · simp [hrole]
  · intro c hc
    rw [hclosed] at hc
    by_cases hrole : e.role = .ends
    · simp only [hrole, if_true] at hc
      obtain ⟨o, ho, rfl⟩ := Option.map_eq_some_iff.mp hc
      obtain ⟨start, hstart, rfl⟩ := Option.map_eq_some_iff.mp ho
      obtain ⟨hlatest, -⟩ := Option.filter_eq_some_iff.mp hstart
      exact ⟨start, hlatest, rfl, rfl, kind.kind_rules, kind.data_rules start⟩
    · simp [hrole] at hc
  · intro other hother
    have hopen : Keyed.find? e.key (after kind.rules other).pending =
        Keyed.find? e.key (after kind.rules history).pending := by
      rw [find?_after, find?_after, ← leftOpen_own, hother, leftOpen_own]
    obtain ⟨hsame, hdiagnostics⟩ := mark_congr kind.rules pitchOf hopen
    refine ⟨hsame, hdiagnostics, hopen, ?_⟩
    have hchange (r : Registry kind.Payload) := find?_tell kind.rules r (.mark e pitchOf) e.key
    exact (hchange _).trans (hopen ▸ (hchange _).symm)

/-- Two slurs whose markers alternate. The end of the first one finds its own start and
continuation, as it would without the second. -/
theorem closes_iff_latest_starts_alternating :
    let marker (key : Nat) (role : Role) (note : Nat) : Endpoint Unit :=
      ⟨key, role, note, .first, ()⟩
    let call (e : Endpoint Unit) : RegistryCall Unit := .mark e fun _ => none
    let history := [call (marker 1 .starts 0), call (marker 2 .starts 1),
      call (marker 1 .continues 2), call (marker 2 .ends 3)]
    let alone := [call (marker 1 .starts 0), call (marker 1 .continues 2)]
    let told (history : List (RegistryCall Unit)) :=
      (after .slur history).mark .slur (fun _ => none) (marker 1 .ends 4)
    ∃ c, (told history).closed = some c ∧ c.relation.parts = [0, 2, 4] ∧
      c.relation.data = .slur ∧ (told alone).closed = some c := by
  intro marker call history alone told
  obtain ⟨hiff, hendpoints, hother⟩ :=
    closes_iff_latest_starts .slur history (marker 1 .ends 4) fun _ => none
  have hstart : RegistryCall.latest? 1 history = some (marker 1 .starts 0) := rfl
  obtain ⟨c, hc⟩ := Option.isSome_iff_exists.mp (hiff.mpr ⟨rfl, _, hstart, rfl⟩)
  obtain ⟨start, hlatest, hjoined, hparts, -, hdata⟩ := hendpoints c hc
  obtain rfl : marker 1 .starts 0 = start := Option.some.inj (hstart.symm.trans hlatest)
  refine ⟨c, hc, ?_, hdata, ?_⟩
  · rw [hparts, hjoined]
    rfl
  · exact (hother alone rfl).1.trans hc

end Registry

/-! ## Relations that end -/

namespace RegistryCall

variable {π : Type} {implied : π} {key : Nat} {history : List (RegistryCall π)}

/-- All markers and notes of the relation that a call ends. -/
def ended? (implied : π) (history : List (RegistryCall π)) :
    RegistryCall π → Option (List (Endpoint π))
  | .mark e _ =>
    if e.role = .ends then (leftOpen implied e.key history).map (·.endpoints ++ [e]) else none
  | .continueAll .. => none

/-- The relations that end with some calls behind others, in order. -/
def endedAfter (implied : π) (past : List (RegistryCall π)) :
    List (RegistryCall π) → List (List (Endpoint π))
  | [] => []
  | call :: calls => (call.ended? implied past).toList ++ endedAfter implied (past ++ [call]) calls

theorem endedAfter_concat (past calls : List (RegistryCall π)) (call : RegistryCall π) :
    endedAfter implied past (calls ++ [call]) =
      endedAfter implied past calls ++ (call.ended? implied (past ++ calls)).toList := by
  induction calls generalizing past with
  | nil => simp [endedAfter]
  | cons first calls ih =>
      rw [List.cons_append, endedAfter, ih, endedAfter, List.append_assoc, List.append_assoc,
        List.singleton_append]

/-- What is open has been marked, but for the notes that go on with all. -/
theorem marked_of_leftOpen {o : OpenRelation π} (h : leftOpen implied key history = some o) :
    (o.start.key = key ∧ ∃ pitchOf, .mark o.start pitchOf ∈ history) ∧
      ∀ e ∈ o.later, e.payload = implied ∨
        (e.key = key ∧ ∃ pitchOf, .mark e pitchOf ∈ history) := by
  obtain ⟨start, hstart, rfl⟩ := Option.map_eq_some_iff.mp h
  constructor
  · obtain ⟨hlatest, -⟩ := Option.filter_eq_some_iff.mp hstart
    obtain ⟨call, hcall, hbound⟩ := List.mem_filterMap.mp (List.mem_of_getLast? hlatest)
    obtain ⟨hkey, pitchOf, rfl⟩ := eq_mark_of_bound? hbound
    exact ⟨hkey, pitchOf, hcall⟩
  · intro e he
    obtain ⟨call, hcall, hjoint⟩ := List.mem_filterMap.mp he
    have hmem : call ∈ history := (List.rtakeWhile_suffix _ _).subset hcall
    cases call with
    | continueAll note position => exact .inl (Option.some.inj hjoint ▸ rfl)
    | mark e' pitchOf =>
        simp only [joint?] at hjoint
        split at hjoint
        · next hkey =>
          obtain rfl := Option.some.inj hjoint
          exact .inr ⟨hkey.1, pitchOf, hmem⟩
        · cases hjoint

end RegistryCall

end ScorePlayback
