import ScorePlayback.Proofs.Relation.History

/-! # What becomes of every marker

A registry reports a marker or makes use of it. A start is closed by an end, or another start takes
its place, or it stays open until the registry closes, and all that does not end in a relation is
reported. A continuation and an end have a relation to go on with, or are reported. -/

namespace ScorePlayback

/-- How many reports are of a kind. -/
def reported (kind : DiagnosticKind) (reports : List Diagnostic) : Nat :=
  reports.countP (·.kind = kind)

@[simp] theorem reported_nil (kind : DiagnosticKind) : reported kind [] = 0 := rfl

@[simp] theorem reported_append (kind : DiagnosticKind) (ds es : List Diagnostic) :
    reported kind (ds ++ es) = reported kind ds + reported kind es := List.countP_append

@[simp] theorem reported_singleton (kind : DiagnosticKind) (fault : RelationFault)
    (position : Position) :
    reported kind [fault.diagnostic position] = if fault.kind = kind then 1 else 0 := by
  by_cases h : fault.kind = kind <;> simp [reported, RelationFault.diagnostic, h]

def RegistryCall.hasRole {π : Type} (role : Role) : RegistryCall π → Bool
  | .mark e _ => e.role = role
  | .continueAll .. => false

/-- The pitches of the first and the last note, if both have one. -/
def Relation.outerPitches? (pitchOf : Nat → Option Pitch) (r : Relation) :
    Option (Pitch × Pitch) :=
  (r.parts.head?.bind pitchOf).bind fun first =>
    (r.parts.getLast?.bind pitchOf).map fun last => (first, last)

/-! ## Turns -/

namespace RegistryTurn

variable {π : Type}

/-- A marker that continues a relation which is open. -/
def goesOn (t : RegistryTurn π) : Bool :=
  match t.call with
  | .mark e _ => e.role = .continues ∧ (Keyed.find? e.key t.registry.pending).isSome
  | .continueAll .. => false

/-- The pitches of the two notes that a tie joins which closes. -/
def tied? (rules : RelationRules π) (t : RegistryTurn π) : Option (Pitch × Pitch) :=
  match t.call, (t.told rules).closed with
  | .mark _ pitchOf, some c =>
    if c.relation.kind = .tie then c.relation.outerPitches? pitchOf else none
  | _, _ => none

end RegistryTurn

namespace Registry

variable {kind : RelationKind}

def reportsIn {π : Type} (rules : RelationRules π) (ts : List (RegistryTurn π)) :
    List Diagnostic := ts.flatMap fun t => (t.told rules).diagnostics

/-- Every marker is used or reported, in all turns and when the registry closes behind them. -/
structure Accounted (kind : RelationKind) (history : List (RegistryCall kind.Payload))
    (ts : List (RegistryTurn kind.Payload)) (last : Registry kind.Payload)
    (close : Resolution (Registry kind.Payload) (ClosedRelation kind.Payload)) : Prop where
  starts : history.countP (·.hasRole .starts) = (closedIn kind.rules ts).length +
    reported .duplicatedRelation (reportsIn kind.rules ts ++ close.diagnostics) +
    reported .unterminatedRelation (reportsIn kind.rules ts ++ close.diagnostics)
  joins : history.countP (·.hasRole .ends) + history.countP (·.hasRole .continues) =
    (closedIn kind.rules ts).length + ts.countP (·.goesOn) +
    reported .unmatchedEnd (reportsIn kind.rules ts ++ close.diagnostics)
  /-- What goes on is kept, and nothing else changes with a continuation. -/
  goesOn : ∀ t ∈ ts, ∀ e pitchOf, t.call = .mark e pitchOf → e.role = .continues →
    if t.goesOn then ∃ o, Keyed.find? e.key t.registry.pending = some o ∧
      Keyed.find? e.key (t.told kind.rules).state.pending = some (o.goOn e)
    else (t.told kind.rules).state = t.registry
  /-- A tie is objected to if its pitches differ. -/
  unequal : ∀ t ∈ ts, ∀ first last, t.tied? kind.rules = some (first, last) →
    reported .invalidTie (t.told kind.rules).diagnostics =
      if first.step = last.step ∧ first.octave = last.octave ∧ first.alter = last.alter then 0
      else 1
  untied : ∀ t ∈ ts, t.tied? kind.rules = none →
    reported .invalidTie (t.told kind.rules).diagnostics = 0
  /-- Pitches do not matter to what is closed. -/
  built : ∀ t ∈ ts, ∀ e pitchOf, t.call = .mark e pitchOf → ∀ pitchOf',
    (t.registry.mark kind.rules pitchOf' e).closed = (t.told kind.rules).closed
  kinds : ∀ d ∈ reportsIn kind.rules ts ++ close.diagnostics, d.kind ∈
    [.duplicatedRelation, .unmatchedEnd, .unterminatedRelation, .invalidTie]
  empty : close.state.pending = []
  /-- The open relations are reported where they start, in the order of their keys. -/
  unterminated :
    (reportsIn kind.rules ts ++ close.diagnostics).filter (·.kind = .unterminatedRelation) =
      last.openStarts.map fun e => (RelationFault.neverClosed kind e.key).diagnostic e.position
  ascending : last.openStarts.Pairwise (·.key < ·.key)
  mem_openStarts : ∀ e, e ∈ last.openStarts ↔
    RegistryCall.latest? e.key history = some e ∧ e.role = .starts

/-! ## One marker -/

/-- Only tied notes can be objected to. -/
theorem kind_of_objection {p q : Option Pitch} {fault : RelationFault}
    (h : kind.rules.objection p q = some fault) : fault.kind = .invalidTie := by
  cases kind with
  | slur | beam | tuplet => cases h
  | tie =>
      cases p with
      | none => cases h
      | some first =>
          cases q with
          | none => cases h
          | some last =>
              by_cases hsound : first.sameSound last = true
              · simp [RelationKind.rules, RelationRules.tie, hsound] at h
              · simp only [RelationKind.rules, RelationRules.tie, hsound] at h
                obtain rfl := Option.some.inj h
                rfl

theorem reported_objection {k : DiagnosticKind} (hk : k ≠ .invalidTie) (kind : RelationKind)
    (p q : Option Pitch) (position : Position) :
    reported k ((kind.rules.objection p q).toList.map fun fault => fault.diagnostic position) =
      0 := by
  cases h : kind.rules.objection p q with
  | none => rfl
  | some fault => simp [kind_of_objection h, hk.symm]

theorem reported_unequalPitches (p q : Option Pitch) (position : Position) :
    reported .invalidTie
      ((RelationRules.tie.objection p q).toList.map fun fault => fault.diagnostic position) =
    match (p.bind fun first => q.map fun last => (first, last)) with
    | some (first, last) => if first.sameSound last then 0 else 1
    | none => 0 := by
  cases p with
  | none => rfl
  | some first =>
      cases q with
      | none => rfl
      | some last =>
          by_cases h : first.sameSound last
          · simp [RelationRules.tie, h]
          · simp [RelationRules.tie, h, RelationFault.kind]

theorem outerPitches?_closing (o : OpenRelation kind.Payload) (e : Endpoint kind.Payload)
    (pitchOf : Nat → Option Pitch) :
    (closing kind.rules o e).relation.outerPitches? pitchOf =
      (pitchOf o.start.note).bind fun first => (pitchOf e.note).map fun last => (first, last) := by
  have hlast : ((o.endpoints ++ [e]).map Endpoint.note).getLast? = some e.note := by simp
  have hfirst : ((o.endpoints ++ [e]).map Endpoint.note).head? = some o.start.note := by
    simp [OpenRelation.endpoints]
  simp only [Relation.outerPitches?, closing, hfirst, hlast, Option.bind_some]

namespace Marked

variable {pitchOf : Nat → Option Pitch} {r : Registry kind.Payload} {e : Endpoint kind.Payload}
  {told : Resolution (Registry kind.Payload) (ClosedRelation kind.Payload)}

/-- A start adds an open relation, and closing or replacing takes one away. -/
theorem account_starts (h : Marked kind.rules pitchOf r e told) (hr : Keyed.Ascends r.pending) :
    (if e.role = .starts then 1 else 0) + r.pending.length = told.closed.toList.length +
      reported .duplicatedRelation told.diagnostics + told.state.pending.length := by
  cases h with
  | starts hrole hfind => simp [hrole, Keyed.length_insert_of_find? hfind, Nat.add_comm]
  | startsAgain hrole hfind => simp [hrole, hr.length_insert hfind, RelationFault.kind]
  | continues hrole hfind => simp [hrole, hr.length_insert hfind]
  | continuesNone hrole => simp [hrole, RelationFault.kind]
  | ends hrole hfind =>
      have hlength := hr.length_erase hfind
      simp [hrole, reported_objection]
      omega
  | endsNone hrole => simp [hrole, RelationFault.kind]

theorem account_joins (h : Marked kind.rules pitchOf r e told) :
    (if e.role = .ends then 1 else 0) + (if e.role = .continues then 1 else 0) =
      told.closed.toList.length +
      (if e.role = .continues ∧ (Keyed.find? e.key r.pending).isSome then 1 else 0) +
      reported .unmatchedEnd told.diagnostics := by
  cases h with
  | starts hrole | startsAgain hrole => simp [hrole, RelationFault.kind]
  | continues hrole hfind | continuesNone hrole hfind => simp [hrole, hfind, RelationFault.kind]
  | ends hrole => simp [hrole, reported_objection]
  | endsNone hrole => simp [hrole, RelationFault.kind]

theorem kind_mem (h : Marked kind.rules pitchOf r e told) :
    ∀ d ∈ told.diagnostics, d.kind ∈
      [DiagnosticKind.duplicatedRelation, .unmatchedEnd, .invalidTie] := by
  intro d hd
  cases h with
  | starts | continues => cases hd
  | startsAgain | continuesNone | endsNone =>
      obtain rfl := List.mem_singleton.mp hd
      simp [RelationFault.diagnostic, RelationFault.kind]
  | ends =>
      obtain ⟨fault, hfault, rfl⟩ := List.mem_map.mp hd
      simp [RelationFault.diagnostic, kind_of_objection (Option.mem_toList.mp hfault)]

/-- The keys ascend as before. -/
theorem ascends (h : Marked kind.rules pitchOf r e told) (hr : Keyed.Ascends r.pending) :
    Keyed.Ascends told.state.pending := by
  cases h with
  | starts | startsAgain | continues => exact hr.insert _ _
  | ends => exact hr.erase _
  | continuesNone | endsNone => exact hr

end Marked

/-! ## One turn -/

theorem ascends_tell {r : Registry kind.Payload} (h : Keyed.Ascends r.pending)
    (call : RegistryCall kind.Payload) :
    Keyed.Ascends (r.tell kind.rules call).state.pending := by
  cases call with
  | mark e pitchOf => exact (marked_mark ..).ascends h
  | continueAll note position => exact List.pairwise_map.mpr h

end Registry

namespace RegistryTurn

variable {kind : RelationKind}

open Registry

theorem account_starts (t : RegistryTurn kind.Payload) (h : Keyed.Ascends t.registry.pending) :
    (if t.call.hasRole .starts then 1 else 0) + t.registry.pending.length =
      (t.told kind.rules).closed.toList.length +
        reported .duplicatedRelation (t.told kind.rules).diagnostics +
          (t.told kind.rules).state.pending.length := by
  obtain ⟨r, call⟩ := t
  cases call with
  | continueAll note position =>
      simp [RegistryCall.hasRole, told, Registry.tell, continueAll]
  | mark e pitchOf =>
      simpa [RegistryCall.hasRole, told, Registry.tell] using
        (marked_mark kind.rules pitchOf r e).account_starts h

theorem account_joins (t : RegistryTurn kind.Payload) :
    (if t.call.hasRole .ends then 1 else 0) + (if t.call.hasRole .continues then 1 else 0) =
      (t.told kind.rules).closed.toList.length + (if t.goesOn then 1 else 0) +
        reported .unmatchedEnd (t.told kind.rules).diagnostics := by
  obtain ⟨r, call⟩ := t
  cases call with
  | continueAll note position => simp [RegistryCall.hasRole, goesOn, told, Registry.tell]
  | mark e pitchOf =>
      simpa [RegistryCall.hasRole, goesOn, told, Registry.tell] using
        (marked_mark kind.rules pitchOf r e).account_joins

theorem kind_mem (t : RegistryTurn kind.Payload) : ∀ d ∈ (t.told kind.rules).diagnostics, d.kind ∈
    [DiagnosticKind.duplicatedRelation, .unmatchedEnd, .invalidTie] := by
  obtain ⟨r, call⟩ := t
  cases call with
  | continueAll note position => exact fun d hd => by cases hd
  | mark e pitchOf => exact (marked_mark kind.rules pitchOf r e).kind_mem

/-- A tie is objected to once, if its notes have pitches that do not sound the same. -/
theorem reported_invalidTie (t : RegistryTurn kind.Payload) :
    reported .invalidTie (t.told kind.rules).diagnostics =
      match t.tied? kind.rules with
      | some (first, last) => if first.sameSound last then 0 else 1
      | none => 0 := by
  obtain ⟨r, call⟩ := t
  cases call with
  | continueAll note position => rfl
  | mark e pitchOf =>
      simp only [tied?, told, Registry.tell]
      have h := marked_mark kind.rules pitchOf r e
      generalize r.mark kind.rules pitchOf e = told at h ⊢
      cases h with
      | starts | continues => rfl
      | startsAgain | continuesNone | endsNone => simp [RelationFault.kind]
      | ends =>
          simp only [outerPitches?_closing]
          cases kind with
          | slur | beam | tuplet => rfl
          | tie => exact reported_unequalPitches ..

theorem unequal_of_tied? (t : RegistryTurn kind.Payload) {first last : Pitch}
    (h : t.tied? kind.rules = some (first, last)) :
    reported .invalidTie (t.told kind.rules).diagnostics =
      if first.step = last.step ∧ first.octave = last.octave ∧ first.alter = last.alter then 0
      else 1 := by
  simp [reported_invalidTie, h, Pitch.sameSound, and_assoc]

theorem if_goesOn (t : RegistryTurn kind.Payload) {e : Endpoint kind.Payload}
    {pitchOf : Nat → Option Pitch} (hcall : t.call = .mark e pitchOf)
    (hrole : e.role = .continues) :
    if t.goesOn then ∃ o, Keyed.find? e.key t.registry.pending = some o ∧
      Keyed.find? e.key (t.told kind.rules).state.pending = some (o.goOn e)
    else (t.told kind.rules).state = t.registry := by
  obtain ⟨r, call⟩ := t
  obtain rfl := hcall
  simp only [goesOn, told, Registry.tell]
  have h := marked_mark kind.rules pitchOf r e
  generalize r.mark kind.rules pitchOf e = told at h ⊢
  cases h with
  | starts hrole' | startsAgain hrole' | ends hrole' | endsNone hrole' => simp [hrole] at hrole'
  | continues _ hfind => simp [hrole, hfind, Keyed.find?_insert_self]
  | continuesNone _ hfind => simp [hfind]

end RegistryTurn

/-! ## All turns -/

namespace Registry

variable {kind : RelationKind}

theorem account_starts {r : Registry kind.Payload} (h : Keyed.Ascends r.pending)
    (history : List (RegistryCall kind.Payload)) :
    history.countP (·.hasRole .starts) + r.pending.length =
      (closedIn kind.rules (r.turns kind.rules history)).length +
        reported .duplicatedRelation (reportsIn kind.rules (r.turns kind.rules history)) +
          (history.foldl (fun r call => (r.tell kind.rules call).state) r).pending.length := by
  induction history generalizing r with
  | nil => simp [turns, closedIn, reportsIn]
  | cons call history ih =>
      have hturn := RegistryTurn.account_starts ⟨r, call⟩ h
      have hrest := ih (ascends_tell h call)
      simp only [RegistryTurn.told] at hturn
      simp only [turns, closedIn, reportsIn, List.flatMap_cons, List.length_append,
        reported_append, List.countP_cons, List.foldl_cons, RegistryTurn.told] at hrest ⊢
      omega

theorem account_joins (r : Registry kind.Payload) (history : List (RegistryCall kind.Payload)) :
    history.countP (·.hasRole .ends) + history.countP (·.hasRole .continues) =
      (closedIn kind.rules (r.turns kind.rules history)).length +
        (r.turns kind.rules history).countP (·.goesOn) +
          reported .unmatchedEnd (reportsIn kind.rules (r.turns kind.rules history)) := by
  induction history generalizing r with
  | nil => simp [turns, closedIn, reportsIn]
  | cons call history ih =>
      have hturn := RegistryTurn.account_joins ⟨r, call⟩
      have hrest := ih (r.tell kind.rules call).state
      dsimp only at hturn
      simp only [turns, closedIn, reportsIn, List.flatMap_cons, List.length_append,
        reported_append, List.countP_cons] at hrest ⊢
      omega

theorem ascends_after (history : List (RegistryCall kind.Payload)) :
    Keyed.Ascends (after kind.rules history).pending := by
  induction history using List.reverseRecOn with
  | nil => exact List.Pairwise.nil
  | append_singleton history call ih =>
      rw [after_concat]
      exact ascends_tell ih call

/-! ## The registry closes -/

/-- Turns leave the relations that are never closed to the end. -/
theorem kind_mem_reportsIn (ts : List (RegistryTurn kind.Payload)) :
    ∀ d ∈ reportsIn kind.rules ts, d.kind ∈
      [DiagnosticKind.duplicatedRelation, .unmatchedEnd, .invalidTie] := by
  intro d hd
  obtain ⟨t, -, hmem⟩ := List.mem_flatMap.mp hd
  exact t.kind_mem d hmem

theorem kind_finish (r : Registry kind.Payload) :
    ∀ d ∈ r.finish kind.rules, d.kind = .unterminatedRelation := by
  intro d hd
  obtain ⟨entry, -, rfl⟩ := List.mem_map.mp hd
  rfl

theorem reported_finish (r : Registry kind.Payload) (k : DiagnosticKind) :
    reported k (r.finish kind.rules) =
      if k = .unterminatedRelation then r.pending.length else 0 := by
  by_cases hk : k = .unterminatedRelation
  · subst hk
    rw [reported, List.countP_eq_length.mpr fun d hd => by simp [r.kind_finish d hd]]
    simp [finish]
  · rw [reported, if_neg hk, List.countP_eq_zero]
    intro d hd
    simpa [r.kind_finish d hd] using Ne.symm hk

theorem reported_unterminated_reportsIn (ts : List (RegistryTurn kind.Payload)) :
    reported .unterminatedRelation (reportsIn kind.rules ts) = 0 := by
  rw [reported, List.countP_eq_zero]
  intro d hd hkind
  have hmem := kind_mem_reportsIn ts d hd
  simp [of_decide_eq_true hkind] at hmem

/-- An open relation is under the key of its start, the latest one of its history. -/
theorem start_of_mem_after {history : List (RegistryCall kind.Payload)} {key : Nat}
    {o : OpenRelation kind.Payload} (h : (key, o) ∈ (after kind.rules history).pending) :
    o.start.key = key ∧ RegistryCall.latest? key history = some o.start ∧
      o.start.role = .starts := by
  have hfind := (ascends_after history).find?_of_mem h
  rw [find?_after] at hfind
  obtain ⟨start, hstart, rfl⟩ := Option.map_eq_some_iff.mp hfind
  obtain ⟨hlatest, hrole⟩ := Option.filter_eq_some_iff.mp hstart
  exact ⟨(RegistryCall.mark_of_latest? hlatest).1, hlatest, by simpa using hrole⟩

theorem mem_openStarts_after {history : List (RegistryCall kind.Payload)}
    {e : Endpoint kind.Payload} : e ∈ (after kind.rules history).openStarts ↔
      RegistryCall.latest? e.key history = some e ∧ e.role = .starts := by
  constructor
  · intro h
    obtain ⟨⟨key, o⟩, hmem, rfl⟩ := List.mem_map.mp h
    obtain ⟨rfl, hlatest, hrole⟩ := start_of_mem_after hmem
    exact ⟨hlatest, hrole⟩
  · rintro ⟨hlatest, hrole⟩
    have hfind := find?_after kind.rules history e.key
    rw [RegistryCall.leftOpen, hlatest] at hfind
    simp only [Option.filter, hrole, decide_true, if_true, Option.map_some] at hfind
    exact List.mem_map.mpr ⟨_, Keyed.mem_of_find? hfind, rfl⟩

theorem pairwise_openStarts_after (history : List (RegistryCall kind.Payload)) :
    (after kind.rules history).openStarts.Pairwise (·.key < ·.key) := by
  refine List.pairwise_map.mpr ((ascends_after history).imp_of_mem fun {a b} ha hb hlt => ?_)
  rw [(start_of_mem_after ha).1, (start_of_mem_after hb).1]
  exact compare_lt_iff_lt.mp hlt

theorem finish_after (history : List (RegistryCall kind.Payload)) :
    (after kind.rules history).finish kind.rules = (after kind.rules history).openStarts.map
      fun e => (RelationFault.neverClosed kind e.key).diagnostic e.position := by
  rw [finish, openStarts, List.map_map]
  refine List.map_congr_left fun entry hmem => ?_
  simp [(start_of_mem_after hmem).1]

/-- No marker is lost. Every start is closed, replaced or never closed, every other marker goes on
with a relation or is reported, and so are ties between different pitches. -/
theorem accounted (kind : RelationKind) (history : List (RegistryCall kind.Payload)) :
    Accounted kind history (turns kind.rules {} history) (after kind.rules history)
      ((after kind.rules history).close kind.rules) where
  starts := by
    have h := account_starts (r := ({} : Registry kind.Payload)) List.Pairwise.nil history
    simp only [close, reported_append, reported_finish, reported_unterminated_reportsIn]
    simpa [after] using h
  joins := by
    have h := account_joins ({} : Registry kind.Payload) history
    simpa [close, reported_finish] using h
  goesOn t _ e pitchOf hcall hrole := t.if_goesOn hcall hrole
  unequal t _ first last h := t.unequal_of_tied? h
  untied t _ h := by rw [t.reported_invalidTie, h]
  built t _ e pitchOf hcall pitchOf' := by
    rw [RegistryTurn.told, hcall, tell, closed_mark, closed_mark]
  kinds d hd := by
    rcases List.mem_append.mp hd with hd | hd
    · have h := kind_mem_reportsIn _ d hd
      simp only [List.mem_cons, List.not_mem_nil, or_false] at h ⊢
      tauto
    · simp [kind_finish _ d hd]
  empty := rfl
  unterminated := by
    rw [List.filter_append, List.filter_eq_nil_iff.mpr, List.nil_append, List.filter_eq_self.mpr]
    · exact finish_after history
    · exact fun d hd => decide_eq_true (kind_finish _ d hd)
    · intro d hd hkind
      have hmem := kind_mem_reportsIn _ d hd
      simp [of_decide_eq_true hkind] at hmem
  ascending := pairwise_openStarts_after history
  mem_openStarts _ := mem_openStarts_after

end Registry

end ScorePlayback
