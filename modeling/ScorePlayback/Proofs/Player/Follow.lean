import ScorePlayback.Repeat.Jump

/-! # What following an event does to a jump table

An entry answers an event with the first of its slots that is not used up, and only its
first two slots count. A table answers with the first of its entries that does. -/

namespace ScorePlayback

/-! ## One slot -/

namespace JumpSlot

theorem isExhausted_eq {s : JumpSlot} : s.isExhausted = decide (s.remaining = 0) :=
  decide_eq_decide.mpr Nat.sub_eq_zero_iff_le.symm

theorem isExhausted_of_eq {s : JumpSlot} (h : s.remaining = 0) : s.isExhausted = true :=
  decide_eq_true (Nat.sub_eq_zero_iff_le.mp h)

theorem not_isExhausted {s : JumpSlot} (h : 0 < s.remaining) : s.isExhausted = false :=
  decide_eq_false fun hle => Nat.ne_of_gt h (Nat.sub_eq_zero_iff_le.mpr hle)

theorem remaining_apply (s : JumpSlot) : s.apply.remaining = s.remaining - 1 :=
  Nat.sub_add_eq _ _ _

@[simp] theorem reset_apply (s : JumpSlot) : s.apply.reset = s.reset := rfl

end JumpSlot

/-! ## One entry -/

/-- A jump is taken by the first slot, or by the second one once the first is used up. The
slot that is taken counts it; nothing else changes. -/
theorem JumpEntry.follow?_eq_some {e e' : JumpEntry} {event target : Nat}
    (h : e.follow? event = some (target, e')) :
    (∃ first rest, e.slots = first :: rest ∧ first.isExhausted = false ∧
      first.triggerEvent = event ∧ target = first.targetEvent ∧ e' = ⟨first.apply :: rest⟩) ∨
    (∃ first second rest, e.slots = first :: second :: rest ∧ first.isExhausted = true ∧
      second.isExhausted = false ∧ second.triggerEvent = event ∧
      target = second.targetEvent ∧ e' = ⟨first :: second.apply :: rest⟩) := by
  obtain ⟨slots⟩ := e
  cases slots with
  | nil => simp [JumpEntry.follow?] at h
  | cons first rest =>
      cases hx : first.isExhausted with
      | false =>
          simp only [JumpEntry.follow?, hx, Bool.not_false, if_true] at h
          split at h
          · next ht =>
            simp only [Option.some.injEq, Prod.mk.injEq] at h
            exact .inl ⟨first, rest, rfl, hx, ht, h.1.symm, h.2.symm⟩
          · simp at h
      | true =>
          cases rest with
          | nil => simp [JumpEntry.follow?, hx] at h
          | cons second rest =>
              simp only [JumpEntry.follow?, hx, Bool.not_true, Bool.false_eq_true, if_false] at h
              split at h
              · next ht =>
                simp only [Bool.and_eq_true, decide_eq_true_eq, Bool.not_eq_true'] at ht
                simp only [Option.some.injEq, Prod.mk.injEq] at h
                exact .inr ⟨first, second, rest, rfl, hx, ht.2, ht.1, h.1.symm, h.2.symm⟩
              · simp at h

theorem JumpEntry.follow?_first {first : JumpSlot} {rest : List JumpSlot} {event : Nat}
    (hx : first.isExhausted = false) (ht : first.triggerEvent = event) :
    JumpEntry.follow? ⟨first :: rest⟩ event = some (first.targetEvent, ⟨first.apply :: rest⟩) := by
  simp [JumpEntry.follow?, hx, ht]

theorem JumpEntry.follow?_second {first second : JumpSlot} {rest : List JumpSlot} {event : Nat}
    (hx : first.isExhausted = true) (hy : second.isExhausted = false)
    (ht : second.triggerEvent = event) :
    JumpEntry.follow? ⟨first :: second :: rest⟩ event =
      some (second.targetEvent, ⟨first :: second.apply :: rest⟩) := by
  simp [JumpEntry.follow?, hx, hy, ht]

/-- An entry does not answer an event that triggers neither of its slots. -/
theorem JumpEntry.follow?_of_triggers_ne {e : JumpEntry} {event : Nat}
    (h : ∀ slot ∈ e.slots, slot.triggerEvent ≠ event) : e.follow? event = none := by
  cases hf : e.follow? event with
  | none => rfl
  | some answer =>
      obtain ⟨target, e'⟩ := answer
      obtain ⟨first, rest, hs, -, ht, -⟩ | ⟨first, second, rest, hs, -, -, ht, -⟩ :=
        JumpEntry.follow?_eq_some hf
      · exact absurd ht (h first (by simp [hs]))
      · exact absurd ht (h second (by simp [hs]))

/-- Only counts change. -/
theorem JumpEntry.reset_of_follow? {e e' : JumpEntry} {event target : Nat}
    (h : e.follow? event = some (target, e')) : e'.reset = e.reset := by
  obtain ⟨first, rest, hs, -, -, -, rfl⟩ | ⟨first, second, rest, hs, -, -, -, -, rfl⟩ :=
    JumpEntry.follow?_eq_some h
  · simp [JumpEntry.reset, hs]
  · simp [JumpEntry.reset, hs]

/-! ## A list of entries -/

theorem followEntries_eq_none {event : Nat} {entries : List JumpEntry} :
    followEntries event entries = none ↔ ∀ e ∈ entries, e.follow? event = none := by
  induction entries with
  | nil => simp [followEntries]
  | cons e rest ih =>
      cases he : e.follow? event with
      | none => simp [followEntries, he, ih]
      | some answer => simp [followEntries, he]

/-- The entries in front of the one that answers stay silent, and only that one changes. -/
theorem followEntries_eq_some {event target : Nat} {entries entries' : List JumpEntry} :
    followEntries event entries = some (target, entries') ↔
      ∃ before e e' after, entries = before ++ e :: after ∧
        (∀ d ∈ before, d.follow? event = none) ∧ e.follow? event = some (target, e') ∧
        entries' = before ++ e' :: after := by
  induction entries generalizing entries' with
  | nil => simp [followEntries]
  | cons e rest ih =>
      cases he : e.follow? event with
      | some answer =>
          obtain ⟨t, e'⟩ := answer
          simp only [followEntries, he, Option.some.injEq, Prod.mk.injEq]
          constructor
          · rintro ⟨rfl, rfl⟩
            exact ⟨[], e, e', rest, rfl, by simp, he, rfl⟩
          · rintro ⟨before, d, d', after, hsplit, hquiet, hd, rfl⟩
            cases before with
            | nil =>
                obtain ⟨rfl, rfl⟩ := List.cons.inj hsplit
                simp_all
            | cons b before =>
                obtain ⟨rfl, -⟩ := List.cons.inj hsplit
                simp [he] at hquiet
      | none =>
          simp only [followEntries, he, Option.map_eq_some_iff, Prod.mk.injEq, Prod.exists]
          constructor
          · rintro ⟨t, rest', hr, rfl, rfl⟩
            obtain ⟨before, d, d', after, rfl, hquiet, hd, rfl⟩ := ih.mp hr
            exact ⟨e :: before, d, d', after, rfl, by simpa [he] using hquiet, hd, rfl⟩
          · rintro ⟨before, d, d', after, hsplit, hquiet, hd, rfl⟩
            cases before with
            | nil =>
                obtain ⟨rfl, rfl⟩ := List.cons.inj hsplit
                simp [he] at hd
            | cons b before =>
                obtain ⟨rfl, rfl⟩ := List.cons.inj hsplit
                refine ⟨target, before ++ d' :: after, ih.mpr ?_, rfl, rfl⟩
                exact ⟨before, d, d', after, rfl, fun x hx => hquiet x (by simp [hx]), hd, rfl⟩

/-! ## A table -/

namespace JumpTable

theorem follow?_eq_none {t : JumpTable} {event : Nat} :
    t.follow? event = none ↔ ∀ e ∈ t.entries, e.follow? event = none := by
  rw [follow?, Option.map_eq_none_iff, followEntries_eq_none]

theorem follow?_eq_some {t t' : JumpTable} {event target : Nat} :
    t.follow? event = some (target, t') ↔
      ∃ before e e' after, t.entries = before ++ e :: after ∧
        (∀ d ∈ before, d.follow? event = none) ∧ e.follow? event = some (target, e') ∧
        t' = { t with entries := before ++ e' :: after } := by
  simp only [follow?, Option.map_eq_some_iff, Prod.mk.injEq, Prod.exists, followEntries_eq_some]
  constructor
  · rintro ⟨_, _, ⟨before, e, e', after, hs, hq, he, rfl⟩, rfl, rfl⟩
    exact ⟨before, e, e', after, hs, hq, he, rfl⟩
  · rintro ⟨before, e, e', after, hs, hq, he, rfl⟩
    exact ⟨_, _, ⟨before, e, e', after, hs, hq, he, rfl⟩, rfl, rfl⟩

theorem reset_of_follow? {t t' : JumpTable} {event target : Nat}
    (h : t.follow? event = some (target, t')) : t'.reset = t.reset := by
  obtain ⟨before, e, e', after, hs, -, he, rfl⟩ := follow?_eq_some.mp h
  simp [reset, hs, JumpEntry.reset_of_follow? he]

/-- A jump leads to the target of one of the slots. -/
theorem target_of_follow? {t t' : JumpTable} {event target : Nat}
    (h : t.follow? event = some (target, t')) :
    ∃ e ∈ t.entries, ∃ slot ∈ e.slots, slot.triggerEvent = event ∧ slot.targetEvent = target := by
  obtain ⟨before, e, e', after, hs, -, he, -⟩ := follow?_eq_some.mp h
  refine ⟨e, by simp [hs], ?_⟩
  obtain ⟨first, rest, hr, -, ht, rfl, -⟩ | ⟨first, second, rest, hr, -, -, ht, rfl, -⟩ :=
    JumpEntry.follow?_eq_some he
  · exact ⟨first, by simp [hr], ht, rfl⟩
  · exact ⟨second, by simp [hr], ht, rfl⟩

end JumpTable
end ScorePlayback
