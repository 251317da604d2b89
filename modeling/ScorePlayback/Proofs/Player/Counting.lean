import ScorePlayback.Proofs.Player.Termination

/-! # Counting jumps

A table can be asked for any events, in any order, and reset in between. Its counts stay within
what its slots require, an entry skips only when it cannot go back any more, and all counts
together are the jumps since the last reset. -/

namespace ScorePlayback

/-! ## Counts -/

/-- Only the first two slots of an entry have been counted, neither more often than it requires,
and the second one only when the first was used up. -/
structure JumpEntry.IsCounted (e : JumpEntry) : Prop where
  le_required : ∀ slot ∈ e.slots, slot.applied ≤ slot.required
  eq_zero : ∀ slot ∈ e.slots.drop 2, slot.applied = 0
  inTurn : ∀ back skip rest, e.slots = back :: skip :: rest → 0 < skip.applied →
    back.isExhausted = true

/-- All counts of a list of slots. -/
def appliedOf (slots : List JumpSlot) : Nat :=
  slots.foldr (fun slot total => slot.applied + total) 0

namespace JumpTable

/-- All counts of a table. -/
def applied (t : JumpTable) : Nat := appliedOf (t.entries.flatMap JumpEntry.slots)

/-- The slot of an entry, both by their places. -/
def slot? (t : JumpTable) (i j : Nat) : Option JumpSlot := t.entries[i]?.bind (·.slots[j]?)

/-- Counts one slot once more. -/
def count (t : JumpTable) (i j : Nat) : JumpTable :=
  { t with entries := t.entries.modify i fun e => ⟨e.slots.modify j JumpSlot.apply⟩ }

end JumpTable

@[simp] theorem appliedOf_nil : appliedOf [] = 0 := rfl

@[simp] theorem appliedOf_cons (slot : JumpSlot) (slots : List JumpSlot) :
    appliedOf (slot :: slots) = slot.applied + appliedOf slots := rfl

@[simp] theorem appliedOf_append (first second : List JumpSlot) :
    appliedOf (first ++ second) = appliedOf first + appliedOf second := by
  induction first with
  | nil => simp
  | cons slot first ih => simp [ih, Nat.add_assoc]

@[simp] theorem appliedOf_map_reset (slots : List JumpSlot) :
    appliedOf (slots.map JumpSlot.reset) = 0 := by
  induction slots with
  | nil => rfl
  | cons slot slots ih => simpa [JumpSlot.reset] using ih

theorem JumpTable.applied_reset (t : JumpTable) : t.reset.applied = 0 := by
  have h : t.reset.entries.flatMap JumpEntry.slots =
      (t.entries.flatMap JumpEntry.slots).map JumpSlot.reset := by
    simp [reset, JumpEntry.reset, List.flatMap_map, List.map_flatMap]
  rw [applied, h, appliedOf_map_reset]

theorem JumpEntry.isCounted_reset (e : JumpEntry) : e.reset.IsCounted := by
  have hzero : ∀ slot ∈ e.reset.slots, slot.applied = 0 := by
    intro slot hslot
    obtain ⟨s, -, rfl⟩ := List.mem_map.mp hslot
    rfl
  refine ⟨fun slot hslot => ?_, fun slot hslot => hzero slot (List.mem_of_mem_drop hslot), ?_⟩
  · rw [hzero slot hslot]
    exact Nat.zero_le _
  · intro back skip rest hs hskip
    have := hzero skip (by simp [hs])
    omega

/-! ## One jump -/

theorem modify_append_cons {α : Type} (before after : List α) (x : α) (f : α → α) :
    (before ++ x :: after).modify before.length f = before ++ f x :: after := by
  induction before with
  | nil => rfl
  | cons y before ih => exact congrArg (List.cons y) ih

namespace JumpEntry

variable {e e' : JumpEntry} {event target : Nat}

/-- The slot that answers is one of the first two. It is triggered by the event and not used up,
and nothing but its count changes. -/
theorem exists_slot_of_follow? (h : e.follow? event = some (target, e')) :
    ∃ j slot, j < 2 ∧ e.slots[j]? = some slot ∧ slot.triggerEvent = event ∧
      slot.isExhausted = false ∧ slot.targetEvent = target ∧
      e' = ⟨e.slots.modify j JumpSlot.apply⟩ := by
  obtain ⟨slots⟩ := e
  obtain ⟨first, rest, hs, hx, ht, rfl, rfl⟩ | ⟨first, second, rest, hs, -, hy, ht, rfl, rfl⟩ :=
    follow?_eq_some h
  · obtain rfl : slots = first :: rest := hs
    exact ⟨0, first, by omega, rfl, ht, hx, rfl, rfl⟩
  · obtain rfl : slots = first :: second :: rest := hs
    exact ⟨1, second, by omega, rfl, ht, hy, rfl, rfl⟩

theorem applied_of_follow? (h : e.follow? event = some (target, e')) :
    appliedOf e'.slots = appliedOf e.slots + 1 := by
  obtain ⟨first, rest, hs, -, -, -, rfl⟩ | ⟨first, second, rest, hs, -, -, -, -, rfl⟩ :=
    follow?_eq_some h
  · simp only [hs, appliedOf_cons, JumpSlot.apply]
    omega
  · simp only [hs, appliedOf_cons, JumpSlot.apply]
    omega

theorem IsCounted.of_follow? (hc : e.IsCounted) (h : e.follow? event = some (target, e')) :
    e'.IsCounted := by
  obtain ⟨slots⟩ := e
  obtain ⟨hle, hzero, hturn⟩ := hc
  obtain ⟨first, rest, hs, hx, -, -, rfl⟩ | ⟨first, second, rest, hs, hx, hy, -, -, rfl⟩ :=
    follow?_eq_some h
  · obtain rfl : slots = first :: rest := hs
    have hlt : first.applied < first.required := Nat.lt_of_not_le (of_decide_eq_false hx)
    refine ⟨List.forall_mem_cons.mpr ⟨hlt, (List.forall_mem_cons.mp hle).2⟩, hzero, ?_⟩
    intro back skip others hslots hskip
    obtain ⟨rfl, rfl⟩ := List.cons.inj hslots
    -- the second slot has not been counted: the first one was not used up
    exact absurd (hturn _ _ _ rfl hskip) (by simp [hx])
  · obtain rfl : slots = first :: second :: rest := hs
    have hlt : second.applied < second.required := Nat.lt_of_not_le (of_decide_eq_false hy)
    obtain ⟨hfirst, -, hrest⟩ := by simpa only [List.forall_mem_cons] using hle
    refine ⟨?_, hzero, ?_⟩
    · simpa only [List.forall_mem_cons] using ⟨hfirst, hlt, hrest⟩
    · intro back skip others hslots _
      obtain ⟨rfl, -⟩ := List.cons.inj hslots
      exact hx

end JumpEntry

namespace JumpTable

variable {t t' : JumpTable} {event target : Nat}

/-- A jump is taken by one slot of the table, and only this slot is counted. -/
theorem exists_slot_of_follow? (h : t.follow? event = some (target, t')) :
    ∃ i j slot, j < 2 ∧ t.slot? i j = some slot ∧ slot.triggerEvent = event ∧
      slot.isExhausted = false ∧ slot.targetEvent = target ∧ t' = t.count i j := by
  obtain ⟨before, e, e', after, hs, -, he, rfl⟩ := follow?_eq_some.mp h
  obtain ⟨j, slot, hj, hslot, htrigger, hx, htarget, rfl⟩ := JumpEntry.exists_slot_of_follow? he
  refine ⟨before.length, j, slot, hj, by simp [slot?, hs, hslot], htrigger, hx, htarget, ?_⟩
  rw [count, hs, modify_append_cons]

theorem applied_of_follow? (h : t.follow? event = some (target, t')) :
    t'.applied = t.applied + 1 := by
  obtain ⟨before, e, e', after, hs, -, he, rfl⟩ := follow?_eq_some.mp h
  simp only [applied, hs, List.flatMap_append, List.flatMap_cons, appliedOf_append,
    JumpEntry.applied_of_follow? he]
  omega

theorem isCounted_of_follow? (hc : ∀ e ∈ t.entries, e.IsCounted)
    (h : t.follow? event = some (target, t')) : ∀ e ∈ t'.entries, e.IsCounted := by
  obtain ⟨before, d, d', after, hs, -, hd, rfl⟩ := follow?_eq_some.mp h
  simp only [hs, List.forall_mem_append, List.forall_mem_cons] at hc ⊢
  exact ⟨hc.1, hc.2.1.of_follow? hd, hc.2.2⟩

end JumpTable

/-! ## Any number of steps -/

/-- What can be done with a table. -/
inductive TableStep where
  | follow (event : Nat)
  | reset
deriving DecidableEq

/-- A table with the number of jumps that it has taken since its last reset. -/
structure Ledger where
  table : JumpTable
  taken : Nat
deriving DecidableEq

namespace Ledger

def start (t : JumpTable) : Ledger := ⟨t.reset, 0⟩

def step (l : Ledger) : TableStep → Ledger
  | .follow event =>
    match l.table.follow? event with
    | some (_, table) => ⟨table, l.taken + 1⟩
    | none => l
  | .reset => start l.table

/-- The counts are those of jumps since the last reset, on the slots of a table. -/
structure Keeps (t : JumpTable) (l : Ledger) : Prop where
  reset_eq : l.table.reset = t.reset
  isCounted : ∀ e ∈ l.table.entries, e.IsCounted
  taken_eq : l.taken = l.table.applied
  taken_add : l.taken + l.table.remaining = t.capacity

theorem Keeps.start (t : JumpTable) : (start t).Keeps t where
  reset_eq := by simp [Ledger.start, JumpTable.reset, JumpEntry.reset, JumpSlot.reset]
  isCounted e he := by
    obtain ⟨d, -, rfl⟩ := List.mem_map.mp he
    exact d.isCounted_reset
  taken_eq := t.applied_reset.symm
  taken_add := by simp [Ledger.start, JumpTable.remaining_reset]

theorem step_of_none {l : Ledger} {event : Nat} (h : l.table.follow? event = none) :
    l.step (.follow event) = l := by
  rw [step, h]

theorem step_of_some {l : Ledger} {event target : Nat} {table : JumpTable}
    (h : l.table.follow? event = some (target, table)) :
    l.step (.follow event) = ⟨table, l.taken + 1⟩ := by
  rw [step, h]

theorem Keeps.step {t : JumpTable} {l : Ledger} (h : l.Keeps t) (s : TableStep) :
    (l.step s).Keeps t := by
  cases s with
  | follow event =>
      cases hf : l.table.follow? event with
      | none => exact (step_of_none hf).symm ▸ h
      | some answer =>
          obtain ⟨target, table⟩ := answer
          have happlied := JumpTable.applied_of_follow? hf
          have hremaining := JumpTable.remaining_of_follow? hf
          have htaken := h.taken_eq
          have htotal := h.taken_add
          rw [step_of_some hf]
          exact ⟨(JumpTable.reset_of_follow? hf).trans h.reset_eq,
            JumpTable.isCounted_of_follow? h.isCounted hf, by dsimp only; omega,
            by dsimp only; omega⟩
  | reset =>
      have hstart : Ledger.start l.table = Ledger.start t := by
        rw [Ledger.start, h.reset_eq, Ledger.start]
      rw [Ledger.step, hstart]
      exact .start t

theorem Keeps.foldl {t : JumpTable} (steps : List TableStep) :
    (steps.foldl Ledger.step (Ledger.start t)).Keeps t :=
  List.foldlRecOn (motive := Keeps t) steps _ (.start t) fun _ h s _ => h.step s

/-- One slot answers the event, and in the next state only this slot has been counted. -/
def Answers (l : Ledger) (event target : Nat) : Prop :=
  ∃ i j slot, j < 2 ∧ l.table.slot? i j = some slot ∧ slot.triggerEvent = event ∧
    slot.isExhausted = false ∧ slot.targetEvent = target ∧
    l.step (.follow event) = ⟨l.table.count i j, l.taken + 1⟩

theorem answers_of_follow? {l : Ledger} {event target : Nat} {table : JumpTable}
    (h : l.table.follow? event = some (target, table)) : l.Answers event target := by
  obtain ⟨i, j, slot, hj, hslot, htrigger, hx, htarget, rfl⟩ := JumpTable.exists_slot_of_follow? h
  exact ⟨i, j, slot, hj, hslot, htrigger, hx, htarget, step_of_some h⟩

/-- Whatever is done with a table, its counts keep to its slots and add up to the jumps since the
last reset. An event is answered by one slot, or nothing changes. -/
theorem counts_jumps (t : JumpTable) (steps : List TableStep) :
    let l := steps.foldl Ledger.step (Ledger.start t)
    (∀ e ∈ l.table.entries, e.IsCounted) ∧ l.table.reset = t.reset ∧
      (∀ event, (l.table.follow? event = none ∧ l.step (.follow event) = l) ∨
        ∃ target table, l.table.follow? event = some (target, table) ∧ l.Answers event target) ∧
      l.taken = l.table.applied ∧ l.taken ≤ t.capacity := by
  intro l
  have h : l.Keeps t := .foldl steps
  refine ⟨h.isCounted, h.reset_eq, fun event => ?_, h.taken_eq, h.taken_add ▸ Nat.le_add_right _ _⟩
  cases hf : l.table.follow? event with
  | none => exact .inl ⟨rfl, step_of_none hf⟩
  | some answer => exact .inr ⟨answer.1, answer.2, rfl, answers_of_follow? hf⟩

end Ledger
end ScorePlayback
