/-! # Jumps

A repeat is an entry of the jump table. Its first slot is a jump back, taken a number of
times; the second slot, for an ending, is a skip that is taken once the jumps back are used
up. -/

namespace ScorePlayback

/-- When playback reaches `triggerEvent` it continues at `targetEvent`, `required` times. -/
structure JumpSlot where
  triggerMeasure : Nat
  triggerEvent : Nat
  required : Nat
  applied : Nat
  targetMeasure : Nat
  targetEvent : Nat
deriving DecidableEq, Repr

namespace JumpSlot

def isExhausted (s : JumpSlot) : Bool := s.required ≤ s.applied

def apply (s : JumpSlot) : JumpSlot := { s with applied := s.applied + 1 }

def reset (s : JumpSlot) : JumpSlot := { s with applied := 0 }

/-- How often the slot can still be taken. -/
def remaining (s : JumpSlot) : Nat := s.required - s.applied

end JumpSlot

structure JumpEntry where
  slots : List JumpSlot
deriving DecidableEq, Repr

namespace JumpEntry

/-- The target of the slot that takes playback away from an event, and the entry after it. -/
def follow? (e : JumpEntry) (event : Nat) : Option (Nat × JumpEntry) :=
  match e.slots with
  | [] => none
  | first :: rest =>
    if !first.isExhausted then
      if first.triggerEvent = event then some (first.targetEvent, ⟨first.apply :: rest⟩) else none
    else
      match rest with
      | [] => none
      | second :: rest =>
        if second.triggerEvent = event && !second.isExhausted then
          some (second.targetEvent, ⟨first :: second.apply :: rest⟩)
        else none

def reset (e : JumpEntry) : JumpEntry := ⟨e.slots.map JumpSlot.reset⟩

/-- Only the first two slots of an entry are ever taken. -/
def remaining (e : JumpEntry) : Nat :=
  (e.slots.take 2).foldr (fun slot total => slot.remaining + total) 0

end JumpEntry

/-- A bracket that belongs to no repeat. -/
structure VoltaNotice where
  ending : Nat
  measure : Nat
deriving DecidableEq, Repr

def VoltaNotice.message (n : VoltaNotice) : String :=
  "volta bracket " ++ toString n.ending ++ " at measure " ++ toString n.measure
    ++ " closes no repeat; it is played straight through"

structure JumpTable where
  entries : List JumpEntry := []
  notices : List VoltaNotice := []
deriving DecidableEq, Repr

/-- How many jumps a list of entries can still take. -/
def remainingOf (entries : List JumpEntry) : Nat :=
  entries.foldr (fun entry total => entry.remaining + total) 0

/-- Follows the first entry that takes playback away from an event. -/
def followEntries (event : Nat) : List JumpEntry → Option (Nat × List JumpEntry)
  | [] => none
  | e :: rest =>
    match e.follow? event with
    | some (target, e) => some (target, e :: rest)
    | none => (followEntries event rest).map fun (target, rest) => (target, e :: rest)

namespace JumpTable

/-- Playback has reached an event: where it continues, if a jump is taken, and the table
after it. -/
def follow? (t : JumpTable) (event : Nat) : Option (Nat × JumpTable) :=
  (followEntries event t.entries).map fun (target, entries) => (target, { t with entries })

/-- Forgets all jumps that have been taken. -/
def reset (t : JumpTable) : JumpTable := { t with entries := t.entries.map JumpEntry.reset }

/-- How many jumps can still be taken. -/
def remaining (t : JumpTable) : Nat := remainingOf t.entries

end JumpTable

/-! ## Every jump uses one up -/

theorem JumpEntry.remaining_of_follow? {e e' : JumpEntry} {event target : Nat}
    (h : e.follow? event = some (target, e')) : e'.remaining + 1 = e.remaining := by
  obtain ⟨slots⟩ := e
  match slots with
  | [] => simp [JumpEntry.follow?] at h
  | [first] =>
    simp only [JumpEntry.follow?] at h
    split at h
    · split at h
      · simp only [Option.some.injEq, Prod.mk.injEq] at h
        obtain ⟨-, rfl⟩ := h
        simp_all [JumpEntry.remaining, JumpSlot.remaining, JumpSlot.apply, JumpSlot.isExhausted]
        omega
      · simp at h
    · simp at h
  | first :: second :: rest =>
    simp only [JumpEntry.follow?] at h
    split at h
    · split at h
      · simp only [Option.some.injEq, Prod.mk.injEq] at h
        obtain ⟨-, rfl⟩ := h
        simp_all [JumpEntry.remaining, JumpSlot.remaining, JumpSlot.apply, JumpSlot.isExhausted]
        omega
      · simp at h
    · split at h
      · simp only [Option.some.injEq, Prod.mk.injEq] at h
        obtain ⟨-, rfl⟩ := h
        simp_all [JumpEntry.remaining, JumpSlot.remaining, JumpSlot.apply, JumpSlot.isExhausted]
        omega
      · simp at h

theorem remaining_of_followEntries {entries entries' : List JumpEntry} {event target : Nat}
    (h : followEntries event entries = some (target, entries')) :
    remainingOf entries' + 1 = remainingOf entries := by
  induction entries generalizing entries' with
  | nil => simp [followEntries] at h
  | cons e rest ih =>
    simp only [followEntries] at h
    split at h
    · next he =>
      simp only [Option.some.injEq, Prod.mk.injEq] at h
      obtain ⟨rfl, rfl⟩ := h
      have := JumpEntry.remaining_of_follow? he
      simp only [remainingOf, List.foldr_cons] at *
      omega
    · simp only [Option.map_eq_some_iff, Prod.mk.injEq] at h
      obtain ⟨⟨t, rest'⟩, hr, rfl, rfl⟩ := h
      have := ih hr
      simp only [remainingOf, List.foldr_cons] at *
      omega

theorem JumpTable.remaining_of_follow? {t t' : JumpTable} {event target : Nat}
    (h : t.follow? event = some (target, t')) : t'.remaining + 1 = t.remaining := by
  simp only [JumpTable.follow?, Option.map_eq_some_iff, Prod.mk.injEq] at h
  obtain ⟨⟨target', entries⟩, he, rfl, rfl⟩ := h
  exact remaining_of_followEntries he

end ScorePlayback
