import ScorePlayback.Proofs.Player.Run
import ScorePlayback.Proofs.Sound.MeasureIndex

/-! # Playing ends

Every jump that is taken is used up, so a player takes no more jumps than its table has to
give, and between two of them it moves towards the end. In the table of a score every jump
leads to an event, so playing ends with the last one. -/

namespace ScorePlayback

/-! ## Bounds for any table -/

/-- How often the slots of a table can be taken. Only the first two of an entry count. -/
def JumpTable.capacity (t : JumpTable) : Nat :=
  (t.entries.flatMap fun e => e.slots.take 2).foldr (fun slot total => slot.required + total) 0

theorem remainingOf_reset (entries : List JumpEntry) :
    remainingOf (entries.map JumpEntry.reset) =
      (entries.flatMap fun e => e.slots.take 2).foldr (fun slot total => slot.required + total) 0 := by
  induction entries with
  | nil => rfl
  | cons e rest ih =>
      simp only [remainingOf, List.map_cons, List.foldr_cons, List.flatMap_cons,
        List.foldr_append] at ih ⊢
      rw [ih]
      obtain ⟨_ | ⟨first, _ | ⟨second, slots⟩⟩⟩ := e
      · simp [JumpEntry.remaining, JumpEntry.reset]
      · simp [JumpEntry.remaining, JumpEntry.reset, JumpSlot.remaining, JumpSlot.reset]
      · simp [JumpEntry.remaining, JumpEntry.reset, JumpSlot.remaining, JumpSlot.reset,
          Nat.add_assoc]

theorem JumpTable.remaining_reset (t : JumpTable) : t.reset.remaining = t.capacity :=
  remainingOf_reset t.entries

theorem length_eq_playedBy_add_jumpCount (moves : List Move) :
    moves.length = (playedBy moves).length + jumpCount moves := by
  induction moves with
  | nil => rfl
  | cons move moves ih => cases move <;> simp <;> omega

/-- The player of a table before its first turn. -/
def SoundTable.start {τ : Type} (t : SoundTable τ) : Player := ⟨t.jumps.reset, 0⟩

theorem Run.jumpCount_le_capacity {τ : Type} {t : SoundTable τ} {size : Nat} {q : Player}
    {moves : List Move} (h : Run size t.start moves q) : jumpCount moves ≤ t.jumps.capacity := by
  have hr := h.remaining_eq
  simp only [SoundTable.start, JumpTable.remaining_reset] at hr
  omega

/-! ## The last event of a score -/

theorem playFrom_eq_append_last {size : Nat} {jumps : JumpTable} {event : Nat}
    (htargets : ∀ e ∈ jumps.reset.entries, ∀ slot ∈ e.slots, slot.targetEvent < size)
    (hlt : event < size) :
    ∃ front, playFrom size jumps event = front ++ [size - 1] ∧ size - 1 ∉ front := by
  induction jumps, event using playFrom.induct size with
  | case1 jumps event hlt target rest hf ih =>
      rw [playFrom_of_jump hlt hf]
      obtain ⟨e, he, slot, hslot, -, rfl⟩ := JumpTable.target_of_follow? hf
      apply ih
      · rwa [JumpTable.reset_of_follow? hf]
      · exact htargets e.reset (List.mem_map_of_mem he) slot.reset (List.mem_map_of_mem hslot)
  | case2 jumps event hlt hf ih =>
      rw [playFrom_of_play hlt hf]
      by_cases hnext : event + 1 < size
      · obtain ⟨front, hplay, hfront⟩ := ih htargets hnext
        refine ⟨event :: front, by simp [hplay], ?_⟩
        simp only [List.mem_cons, not_or]
        exact ⟨by omega, hfront⟩
      · refine ⟨[], ?_, by simp⟩
        rw [playFrom_of_size_le jumps (by omega), show event = size - 1 by omega]
        rfl
  | case3 jumps event hge => exact absurd hlt hge

theorem withDeltas_length {τ : Type} [TimeValue τ] (previous : τ) (events : List (SoundEvent τ)) :
    (withDeltas previous events).length = events.length := by
  induction events generalizing previous with
  | nil => rfl
  | cons e rest ih => simp [withDeltas, ih]

/-- There is always the end of the score. -/
theorem length_soundEvents_pos {τ : Type} [TimeValue τ] (score : Score τ) :
    0 < (soundEvents score).length := by
  rw [soundEvents, withDeltas_length, (stableSort_perm _ _).length_eq]
  simp only [unorderedEvents, List.length_append, List.length_singleton]
  omega

namespace SoundTable

variable {τ : Type} [TimeValue τ]

theorem firstEvent_lt (score : Score τ) (measure : Nat) :
    firstEvent (ofScore score).measures measure < (ofScore score).events.length := by
  have hmem : firstEvent (ofScore score).measures measure ∈ (ofScore score).measures :=
    firstEvent_mem (measureIndex_ne_nil _ _) measure
  have hpos := length_soundEvents_pos score
  simpa [ofScore] using lt_length_of_mem_measureIndex (by simpa using hpos) hmem

theorem targetEvent_lt (score : Score τ) :
    ∀ e ∈ (ofScore score).jumps.entries, ∀ slot ∈ e.slots,
      slot.targetEvent < (ofScore score).events.length := by
  intro e he slot hslot
  rw [targetEvent_of_mem_jumpTable he hslot]
  exact firstEvent_lt score _

end SoundTable

/-! ## Termination -/

/-- Whatever its slots say, a table is played in finitely many turns: no run has more than the
bound allows, and one run goes on until it leaves the table and plays its order. For a score
the last event comes last and only then. -/
theorem playOrder_terminates {τ : Type} [TimeValue τ] :
    (∀ t : SoundTable τ,
      (∀ moves q, Run t.events.length t.start moves q →
        moves.length ≤ t.events.length * (t.jumps.capacity + 1) + t.jumps.capacity) ∧
      ∃ moves final, Run t.events.length t.start moves final ∧
        t.events.length ≤ final.event ∧ playedBy moves = t.playOrder ∧
        jumpCount moves ≤ t.jumps.capacity ∧
        t.playOrder.length ≤ t.events.length * (jumpCount moves + 1) ∧
        ∀ event ∈ t.playOrder, event < t.events.length) ∧
    ∀ score : Score τ, ∃ front,
      (SoundTable.ofScore score).playOrder =
        front ++ [(SoundTable.ofScore score).events.length - 1] ∧
      (SoundTable.ofScore score).events.length - 1 ∉ front := by
  have hlength (t : SoundTable τ) {moves : List Move} {q : Player}
      (h : Run t.events.length t.start moves q) :
      (playedBy moves).length ≤ t.events.length * (jumpCount moves + 1) := by
    simpa [SoundTable.start, Nat.mul_add] using h.length_playedBy_le
  refine ⟨fun t => ⟨fun moves q h => ?_, ?_⟩, fun score => ?_⟩
  · have hcount := h.jumpCount_le_capacity
    rw [length_eq_playedBy_add_jumpCount moves]
    calc (playedBy moves).length + jumpCount moves
        ≤ t.events.length * (jumpCount moves + 1) + jumpCount moves :=
          Nat.add_le_add_right (hlength t h) _
      _ ≤ t.events.length * (t.jumps.capacity + 1) + t.jumps.capacity :=
          Nat.add_le_add (Nat.mul_le_mul_left _ (by omega)) hcount
  · obtain ⟨moves, final, hrun, hstop, hplayed⟩ := exists_run t.events.length t.jumps.reset 0
    have hrun' : Run t.events.length t.start moves final := hrun
    refine ⟨moves, final, hrun', hstop, hplayed, hrun'.jumpCount_le_capacity, ?_, ?_⟩
    · rw [SoundTable.playOrder, ← hplayed]
      exact hlength t hrun'
    · rw [SoundTable.playOrder, ← hplayed]
      exact hrun'.lt_size_of_mem_playedBy
  · apply playFrom_eq_append_last
    · intro e he slot hslot
      simp only [JumpTable.reset, List.map_map, List.mem_map, Function.comp_apply] at he
      obtain ⟨d, hd, rfl⟩ := he
      simp only [JumpEntry.reset, List.map_map, List.mem_map, Function.comp_apply] at hslot
      obtain ⟨s, hs, rfl⟩ := hslot
      exact SoundTable.targetEvent_lt score d hd s hs
    · exact length_soundEvents_pos score

end ScorePlayback
