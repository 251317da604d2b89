import ScorePlayback.Proofs.Player.Skips

/-! # What is played at all

A jump back leads over events that have been reached before, unless it goes forwards, so only such
a jump or a skip can pass events that have not been played. A skip is taken after the last jump back
of its entry. So what it passes for the first time lies between this jump and the end of the
bracket. -/

namespace ScorePlayback

/-- Events of a bracket behind its jump back. -/
def Stretch.Omits (r : Stretch) (event : Nat) : Prop := r.close ≤ event ∧ event < r.stop

/-- Events that the jump back passes, if it goes forwards. -/
def Stretch.Overleaps (r : Stretch) (event : Nat) : Prop := r.close ≤ event ∧ event < r.start

/-- Without a skip there is no bracket. -/
theorem Stretch.Omits.exists_slots {e : JumpEntry} {event : Nat} (h : e.stretch.Omits event) :
    ∃ back skip rest, e = ⟨back :: skip :: rest⟩ := by
  obtain ⟨hclose, hstop⟩ := h
  obtain ⟨_ | ⟨back, _ | ⟨skip, rest⟩⟩⟩ := e
  · exact absurd hstop (Nat.not_lt_zero event)
  · exact absurd hstop (Nat.not_lt_of_le hclose)
  · exact ⟨back, skip, rest, rfl⟩

theorem JumpEntry.exists_of_back? {e : JumpEntry} {back : JumpSlot} (h : back ∈ e.back?) :
    ∃ rest, e = ⟨back :: rest⟩ := by
  obtain ⟨rest, hslots⟩ := List.head?_eq_some_iff.mp h
  exact ⟨rest, JumpEntry.mk.injEq .. ▸ hslots⟩

theorem Stretch.Overleaps.exists_back {e : JumpEntry} {event : Nat}
    (h : e.stretch.Overleaps event) :
    ∃ back ∈ e.back?, back.triggerEvent ≤ event ∧ event < back.targetEvent := by
  obtain ⟨hclose, hstart⟩ := h
  obtain ⟨_ | ⟨back, rest⟩⟩ := e
  · exact absurd hstart (Nat.not_lt_zero event)
  · exact ⟨back, rfl, hclose, hstart⟩

/-- Playback has been everywhere in front of an event. -/
structure Player.HasReached (front : Nat) (p : Player) : Prop where
  event_le : p.event ≤ front
  close_le : ∀ e ∈ p.jumps.entries, e.passes = 0 → e.stretch.close ≤ front

theorem Turn.stretches_eq {size : Nat} {p q : Player} {move : Move} (h : Turn size p move q) :
    q.jumps.entries.map JumpEntry.stretch = p.jumps.entries.map JumpEntry.stretch := by
  cases h with
  | play hlt hf => rfl
  | jump hlt hf =>
      obtain ⟨before, e, e', after, hs, -, he, rfl⟩ := JumpTable.follow?_eq_some.mp hf
      simp [hs, (JumpEntry.takes_of_follow? he).1]

namespace Player.HasReached

variable {size front : Nat} {p q : Player}

theorem mono (h : p.HasReached front) {front' : Nat} (hle : front ≤ front') :
    p.HasReached front' where
  event_le := Nat.le_trans h.event_le hle
  close_le e he hpasses := Nat.le_trans (h.close_le e he hpasses) hle

/-- One entry answers, and the others are as they were. -/
theorem replace {before after : List JumpEntry} {e e' : JumpEntry} (h : p.HasReached front)
    (hs : p.jumps.entries = before ++ e :: after) (hs' : q.jumps.entries = before ++ e' :: after)
    (hown : e'.passes = 0 → e'.stretch.close ≤ front) :
    q.HasReached (max front q.event) := by
  refine ⟨Nat.le_max_right _ _, ?_⟩
  have hclose := (h.mono (Nat.le_max_left front q.event)).close_le
  rw [hs, List.forall_mem_append, List.forall_mem_cons] at hclose
  rw [hs', List.forall_mem_append, List.forall_mem_cons]
  obtain ⟨hbefore, -, hafter⟩ := hclose
  exact ⟨hbefore, fun hpasses => Nat.le_trans (hown hpasses) (Nat.le_max_left _ _), hafter⟩

/-- An event that a turn reaches for the first time is played, or a jump passes it. -/
theorem turn {move : Move} (h : p.HasReached front) (hturn : Turn size p move q) :
    ∃ front', q.HasReached front' ∧ ∀ event, front ≤ event → event < front' →
      move = .play event ∨
        ∃ r ∈ p.jumps.entries.map JumpEntry.stretch, r.Omits event ∨ r.Overleaps event := by
  cases hturn with
  | @play jumps event hlt hf =>
      have hevent := h.event_le
      refine ⟨max front (event + 1), ⟨Nat.le_max_right _ _, ?_⟩, ?_⟩
      · exact (h.mono (Nat.le_max_left _ _)).close_le
      · intro next hge hlt'
        dsimp only at hevent
        obtain rfl : next = event := by omega
        exact .inl rfl
  | @jump jumps rest event target hlt hf =>
      obtain ⟨before, e, e', after, hs, -, he, rfl⟩ := JumpTable.follow?_eq_some.mp hf
      obtain ⟨hstretch, htakes⟩ := JumpEntry.takes_of_follow? he
      have hevent : event ≤ front := h.event_le
      -- the event of the jump back has been reached: it is this one, or the jump back is used up
      have hclose : e.stretch.close ≤ front := by
        cases htakes with
        | back hat => exact hat ▸ hevent
        | skip hused => exact h.close_le e (by simp [hs]) hused
      have hreached : Player.HasReached _ ⟨⟨before ++ e' :: after, jumps.notices⟩, target⟩ :=
        h.replace hs rfl fun _ => hstretch ▸ hclose
      refine ⟨max front target, hreached, ?_⟩
      intro event' hge hlt'
      refine .inr ⟨e.stretch, List.mem_map_of_mem (by simp [hs]), ?_⟩
      cases htakes with
      | back _ htarget => exact .inr ⟨by omega, by omega⟩
      | skip _ _ htarget => exact .inl ⟨by omega, by omega⟩

theorem run {moves : List Move} (h : p.HasReached front) (hrun : Run size p moves q) :
    ∀ event, front ≤ event → event < q.event →
      event ∈ playedBy moves ∨
        ∃ r ∈ p.jumps.entries.map JumpEntry.stretch, r.Omits event ∨ r.Overleaps event := by
  induction hrun generalizing front with
  | nil =>
      intro event hge hlt
      have := h.event_le
      omega
  | @cons p mid q move moves hturn hrun ih =>
      obtain ⟨front', hmid, hnew⟩ := h.turn hturn
      rw [hturn.stretches_eq] at ih
      intro event hge hlt
      -- either a later turn reaches the event first, or this one does
      by_cases hevent : front' ≤ event
      · refine (ih hmid event hevent hlt).imp_left fun hplayed => ?_
        cases move with
        | play next => exact List.mem_cons_of_mem next hplayed
        | jump next target => exact hplayed
      · refine (hnew event hge (Nat.lt_of_not_le hevent)).imp_left fun hplay => ?_
        rw [hplay]
        exact List.mem_cons_self ..

end Player.HasReached

namespace SoundTable

variable {τ : Type} {t : SoundTable τ}

/-- Where each jump back is taken, all events are played that no bracket has behind its jump back
and no jump back passes. -/
theorem mem_playOrder_or_omits
    (hpasses : ∀ e ∈ t.jumps.reset.entries, 0 < e.passes) {event : Nat}
    (hevent : event < t.events.length) :
    event ∈ t.playOrder ∨
      ∃ e ∈ t.jumps.reset.entries, e.stretch.Omits event ∨ e.stretch.Overleaps event := by
  obtain ⟨moves, final, hrun, hstop, hplayed⟩ := exists_run t.events.length t.jumps.reset 0
  have hreached : t.start.HasReached 0 :=
    ⟨Nat.le_refl 0, fun e he hzero => absurd hzero (Nat.ne_of_gt (hpasses e he))⟩
  have h := hreached.run hrun event (Nat.zero_le _) (Nat.lt_of_lt_of_le hevent hstop)
  rw [playOrder, ← hplayed]
  refine h.imp_right ?_
  rintro ⟨r, hr, homits⟩
  obtain ⟨e, he, rfl⟩ := List.mem_map.mp hr
  exact ⟨e, he, homits⟩

end SoundTable

/-! ## Where the entries follow each other -/

/-- If a bracket is skipped whenever playback comes back to it, nothing of it is played behind its
jump back. -/
theorem InFrontOf.not_omits {size i count : Nat} {r : Stretch} {after : List JumpEntry}
    {p q : Player} {moves : List Move} (h : InFrontOf size i r count after p)
    (hr : r.opening < r.stop) (hcount : returnsOver r.opening after ≤ count)
    (hrun : Run size p moves q) : ∀ event ∈ playedBy moves, ¬ r.Omits event := by
  induction hrun with
  | nil => simp
  | @cons p mid q move moves hturn hrun ih =>
      cases move with
      | play event =>
          obtain ⟨hlt, hmid⟩ := h.play hturn
          rw [playedBy_play, List.forall_mem_cons]
          exact ⟨fun homits => Nat.not_le_of_lt hlt homits.1, ih hmid⟩
      | jump event target =>
          rw [playedBy_jump]
          rcases h.turn hr hturn with hmid | ⟨-, hstop, before, hafter, hreturns⟩
          · exact ih hmid
          · have hle : arrivals r (before ++ after) mid.event ≤ count := by
              rwa [arrivals, hreturns, hstop, Stretch.ahead_of_lt hr]
            have hclose := h.opening_le_close
            rintro next hnext ⟨hge, hlt⟩
            have := hafter.not_played hr hle hrun next hnext
            omega

namespace SoundTable

variable {τ : Type} {t : SoundTable τ}

/-- Where the entries follow each other, a bracket omits its events behind the jump back if and
only if it is skipped whenever playback comes back to it. -/
theorem notMem_playOrder_iff_of_areTidy (htidy : AreTidy t.jumps.reset.entries)
    (hinside : ∀ e ∈ t.jumps.reset.entries, e.stretch.close < t.events.length)
    (hpasses : ∀ e ∈ t.jumps.reset.entries, 0 < e.passes)
    (hrequired : ∀ back skip rest, ⟨back :: skip :: rest⟩ ∈ t.jumps.reset.entries →
      0 < skip.required) {event : Nat} (hevent : event < t.events.length) :
    event ∉ t.playOrder ↔ ∃ i back skip rest,
      t.jumps.reset.entries[i]? = some ⟨back :: skip :: rest⟩ ∧
        back.triggerEvent ≤ event ∧ event < skip.targetEvent ∧
        returnsOver skip.triggerEvent (t.jumps.reset.entries.eraseIdx i) < skip.required := by
  constructor
  · intro hnone
    obtain ⟨e, he, hpassed⟩ := (mem_playOrder_or_omits hpasses hevent).resolve_left hnone
    have hstart : e.stretch.start ≤ e.stretch.close :=
      Nat.le_trans (htidy.stretch e he).start_le_opening (htidy.stretch e he).opening_le_close
    have homits := hpassed.resolve_right fun ⟨hge, hlt⟩ => by omega
    obtain ⟨back, skip, rest, rfl⟩ := homits.exists_slots
    obtain ⟨i, hi⟩ := List.mem_iff_getElem?.mp he
    obtain ⟨hclose, hstop⟩ : back.triggerEvent ≤ event ∧ event < skip.targetEvent := homits
    have hopening : skip.triggerEvent ≤ back.triggerEvent := (htidy.stretch _ he).opening_le_close
    refine ⟨i, back, skip, rest, hi, hclose, hstop, Nat.lt_of_not_le fun hle => hnone ?_⟩
    -- with too few skips playback enters the bracket once more
    obtain ⟨moves, mid, others, hrun, -, hall⟩ :=
      exists_all_played hi htidy hinside (hrequired _ _ _ he) (by omega) hle
    rw [playOrder, show playFrom _ t.jumps.reset 0 = _ from hrun.playFrom_eq]
    exact List.mem_append_right _ (hall event (by omega) hstop hevent)
  · rintro ⟨i, back, skip, rest, hi, hclose, hstop, hlt⟩ hmem
    have hopening : skip.triggerEvent ≤ back.triggerEvent :=
      (htidy.stretch _ (List.mem_of_getElem? hi)).opening_le_close
    have hskips : 0 < skip.required := Nat.lt_of_le_of_lt (Nat.zero_le _) hlt
    obtain ⟨after, hfront, hafter⟩ := exists_inFrontOf_start hi htidy hinside hskips
    obtain ⟨moves, final, hrun, -, hplayed⟩ := exists_run t.events.length t.jumps.reset 0
    rw [playOrder, ← hplayed] at hmem
    have hcount : returnsOver skip.triggerEvent after ≤ skip.required - 1 :=
      hafter ▸ Nat.le_sub_one_of_lt hlt
    exact hfront.not_omits (show skip.triggerEvent < skip.targetEvent by omega) hcount hrun event
      hmem ⟨hclose, hstop⟩

end SoundTable
end ScorePlayback
