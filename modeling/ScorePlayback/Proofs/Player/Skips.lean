import ScorePlayback.Proofs.Player.Stretches

/-! # How often a bracket is skipped

The entry of an ending skips its bracket a fixed number of times, but playback comes back to the
bracket once for every jump back over it. As long as the skips are more than these jumps, the
bracket stays skipped. Where the entries of a table follow each other, it is played again as soon
as they are not. -/

namespace ScorePlayback

/-! ## After the skip -/

/-- The bracket at a place has been skipped, and its jumps back are used up. -/
structure AfterSkip (i : Nat) (r : Stretch) (count : Nat) (others : List JumpEntry)
    (p : Player) : Prop where
  entry : ∃ e, p.Holds i e others ∧ e.stretch = r ∧ e.skips = count ∧ e.passes = 0
  avoids : ∀ d ∈ others, d.stretch.Avoids r
  outside : p.event ≤ r.opening ∨ r.stop ≤ p.event

/-- How often playback will still arrive at a bracket. -/
def arrivals (r : Stretch) (others : List JumpEntry) (event : Nat) : Nat :=
  returnsOver r.opening others + r.ahead event

namespace AfterSkip

variable {size i count event target : Nat} {r : Stretch} {others : List JumpEntry} {p q : Player}
  {moves : List Move}

/-- A skip answers an arrival. The other jumps lead to no arrival that was not counted. -/
theorem jump (h : AfterSkip i r count others p) (hr : r.opening < r.stop)
    (hturn : Turn size p (.jump event target) q) :
    ∃ count' others', AfterSkip i r count' others' q ∧
      arrivals r others' q.event + count ≤ arrivals r others p.event + count' ∧
      (AreTidy p.jumps.entries →
        arrivals r others' q.event + count = arrivals r others p.event + count') := by
  obtain ⟨⟨e, hholds, hstretch, hskips, hpasses⟩, havoids, houtside⟩ := h
  obtain ⟨rfl, rfl, ⟨e', hstretch', htakes, hholds'⟩ |
    ⟨front, d, d', back, rfl, hstretch', htakes, hholds'⟩⟩ := hholds.jump hturn
  · cases htakes with
    | back _ _ hpasses' _ => omega
    | skip _ hopening htarget hpasses' hskips' =>
        rw [hstretch] at hopening htarget
        refine ⟨count - 1, others, ⟨⟨e', hholds', hstretch'.trans hstretch, by omega, hpasses'⟩,
          havoids, .inr (Nat.le_of_eq htarget.symm)⟩, ?_⟩
        rw [arrivals, arrivals, Stretch.ahead_of_le (Nat.le_of_eq hopening),
          Stretch.ahead_of_lt (by omega)]
        omega
  · have havoids' := havoids d (by simp)
    have hcount := htakes.returns_add_ahead hstretch' havoids' hr
    refine ⟨count, _, ⟨⟨e, hholds', hstretch, hskips, hpasses⟩,
      forall_stretch_replace (P := (·.Avoids r)) hstretch' havoids,
      htakes.lands_outside havoids'⟩, ?_, fun htidy => ?_⟩
    · rw [arrivals, arrivals, returnsOver_middle, returnsOver_middle]
      omega
    · obtain ⟨before, after, hs, -, hothers⟩ := hholds
      rw [hs] at htidy
      have heq := hcount.2 fun hle => by
        rw [← hstretch] at hle hr ⊢
        exact htidy.target_le (by simp [hothers]) htakes hr hle
      rw [arrivals, arrivals, returnsOver_middle, returnsOver_middle]
      omega

/-- The bracket is played at its opening where no skip is left, and nowhere else. -/
theorem play (h : AfterSkip i r count others p) (hr : r.opening < r.stop)
    (hturn : Turn size p (.play event) q) :
    (event = r.opening ∧ count = 0 ∧ p.event = event) ∨
      ((event < r.opening ∨ r.stop ≤ event) ∧ AfterSkip i r count others q ∧
        arrivals r others q.event = arrivals r others p.event) := by
  obtain ⟨⟨e, hholds, hstretch, hskips, hpasses⟩, havoids, houtside⟩ := h
  obtain ⟨rfl, hnext, hquiet, hholds'⟩ := hholds.play hturn
  have hne := (JumpEntry.ne_of_follow?_eq_none hquiet).2 hpasses
  rw [hskips, hstretch] at hne
  by_cases hopening : p.event = r.opening
  · exact .inl ⟨hopening, by omega, rfl⟩
  · refine .inr ⟨by omega, ⟨⟨e, hholds', hstretch, hskips, hpasses⟩, havoids, by omega⟩, ?_⟩
    rw [arrivals, arrivals]
    rcases houtside with hle | hge
    · rw [Stretch.ahead_of_le hle, Stretch.ahead_of_le (by omega)]
    · rw [Stretch.ahead_of_lt (by omega), Stretch.ahead_of_lt (by omega)]

/-- With a skip for every arrival the bracket is not played again. -/
theorem not_played (h : AfterSkip i r count others p) (hr : r.opening < r.stop)
    (hcount : arrivals r others p.event ≤ count) (hrun : Run size p moves q) :
    ∀ event ∈ playedBy moves, event < r.opening ∨ r.stop ≤ event := by
  induction hrun generalizing count others with
  | nil => simp
  | @cons p q' q move moves hturn hrun ih =>
      cases move with
      | jump event target =>
          obtain ⟨count', others', hafter, hle, -⟩ := h.jump hr hturn
          exact ih hafter (by omega)
      | play event =>
          rw [playedBy_play, List.forall_mem_cons]
          rcases h.play hr hturn with ⟨rfl, rfl, hevent⟩ | ⟨hrange, hafter, heq⟩
          · rw [arrivals, Stretch.ahead_of_le (Nat.le_of_eq hevent)] at hcount
            omega
          · exact ⟨hrange, ih hafter (by omega)⟩

/-- Playback that gets past the opening goes on to the end of the bracket. -/
theorem playedBy_of_quiet (h : AfterSkip i r count others p) (horder : p.InOrder size)
    (hevent : p.event = r.opening) (hquiet : p.jumps.follow? p.event = none)
    (hrun : Run size p moves q) (hstop : size ≤ q.event) :
    ∀ event, r.opening ≤ event → event < r.stop → event < size → event ∈ playedBy moves := by
  intro event hge hlt hsize
  obtain ⟨⟨e, ⟨before, after, hs, -, -⟩, rfl, -, hpasses⟩, -, -⟩ := h
  have hplayed := hrun.playFrom_eq
  rw [playFrom_of_size_le _ hstop, List.append_nil, playFrom_of_quiet (event + 1 - p.event)
    (by omega)] at hplayed
  · rw [← hplayed]
    exact List.mem_append_left _ (List.mem_range'_1.mpr (by omega))
  · intro between h₁ h₂
    rcases Nat.eq_or_lt_of_le h₁ with rfl | h₁
    · exact hquiet
    · rw [JumpTable.follow?_eq_none, hs]
      exact (hs ▸ horder.tidy).follow?_eq_none_of_inside hpasses (by omega) (by omega)

/-- Where the entries follow each other, every arrival that was counted comes, and with too few
skips the bracket is played. -/
theorem all_played (h : AfterSkip i r count others p) (hr : r.opening < r.stop)
    (horder : p.InOrder size) (hcount : count < arrivals r others p.event)
    (hrun : Run size p moves q) (hstop : size ≤ q.event) :
    ∀ event, r.opening ≤ event → event < r.stop → event < size → event ∈ playedBy moves := by
  induction hrun generalizing count others with
  | nil p =>
      obtain ⟨⟨e, hholds, hstretch, -, -⟩, -, -⟩ := h
      have hopening := (horder.tidy.stretch e hholds.mem).opening_le_close
      have hclose := horder.inside e hholds.mem
      rw [hstretch] at hopening hclose
      obtain ⟨before, after, hs, -, rfl⟩ := hholds
      have hnone : returnsOver r.opening (before ++ after) = 0 :=
        returnsOver_eq_zero fun d hd => by
          have hmem : d ∈ p.jumps.entries := by
            rw [hs]
            exact List.mem_append.mpr ((List.mem_append.mp hd).imp_right (List.mem_cons_of_mem e))
          have h₁ := horder.inside d hmem
          have h₂ := horder.notPast d hmem
          rw [JumpEntry.returns]
          split <;> omega
      rw [arrivals, hnone, Stretch.ahead_of_lt (by omega)] at hcount
      omega
  | @cons p q' q move moves hturn hrun ih =>
      have hnext := horder.turn hturn
      cases move with
      | jump event target =>
          obtain ⟨count', others', hafter, -, heq⟩ := h.jump hr hturn
          have := heq horder.tidy
          exact ih hafter hnext (by omega) hstop
      | play event =>
          rcases h.play hr hturn with ⟨rfl, -, hevent⟩ | ⟨-, hafter, heq⟩
          · have hquiet : p.jumps.follow? p.event = none := by
              cases hturn with
              | play hlt hf => exact hf
            exact h.playedBy_of_quiet horder hevent hquiet (.cons hturn hrun) hstop
          · intro next hge hlt hsize
            exact List.mem_cons_of_mem _ (ih hafter hnext (by omega) hstop next hge hlt hsize)

end AfterSkip

/-! ## Before the skip -/

/-- The bracket at a place has not been skipped, and the other entries can go back over its
opening no more than `bound` times. -/
structure BeforeSkip (i : Nat) (r : Stretch) (count bound : Nat) (p : Player) : Prop where
  entry : ∃ e others, p.Holds i e others ∧ e.stretch = r ∧ e.skips = count + 1 ∧
    (∀ d ∈ others, d.stretch.Avoids r) ∧ returnsOver r.opening others ≤ bound

theorem BeforeSkip.turn {i size count bound : Nat} {r : Stretch} {p q : Player} {move : Move}
    (h : BeforeSkip i r count bound p) (hturn : Turn size p move q) :
    BeforeSkip i r count bound q ∨
      ∃ others, AfterSkip i r count others q ∧ returnsOver r.opening others ≤ bound ∧
        q.event = r.stop := by
  obtain ⟨e, others, hholds, hstretch, hskips, havoids, hbound⟩ := h
  cases move with
  | play event =>
      obtain ⟨-, -, -, hholds'⟩ := hholds.play hturn
      exact .inl ⟨e, others, hholds', hstretch, hskips, havoids, hbound⟩
  | jump event target =>
      obtain ⟨rfl, rfl, ⟨e', hstretch', htakes, hholds'⟩ |
        ⟨front, d, d', back, rfl, hstretch', htakes, hholds'⟩⟩ := hholds.jump hturn
      · cases htakes with
        | back _ _ _ hskips' =>
            exact .inl ⟨e', others, hholds', hstretch'.trans hstretch, hskips'.trans hskips,
              havoids, hbound⟩
        | skip _ _ htarget hpasses' hskips' =>
            rw [hstretch] at htarget
            exact .inr ⟨others, ⟨⟨e', hholds', hstretch'.trans hstretch, by omega, hpasses'⟩,
              havoids, .inr (Nat.le_of_eq htarget.symm)⟩, hbound, htarget⟩
      · refine .inl ⟨e, _, hholds', hstretch, hskips,
          forall_stretch_replace (P := (·.Avoids r)) hstretch' havoids, ?_⟩
        have hreturns := htakes.returns_le hstretch' r.opening
        rw [returnsOver_middle] at hbound ⊢
        omega

/-- Playback in order comes to a bracket that has not been skipped, and the entries behind it
have not answered yet. -/
structure InFrontOf (size i : Nat) (r : Stretch) (count : Nat) (after : List JumpEntry)
    (p : Player) : Prop where
  inOrder : p.InOrder size
  entry : ∃ before e, p.jumps.entries = before ++ e :: after ∧ before.length = i ∧
    e.stretch = r ∧ e.skips = count + 1 ∧ (p.event ≤ r.opening ∨ 0 < e.passes ∧ p.event ≤ r.close)

theorem InFrontOf.opening_le_close {size i count : Nat} {r : Stretch} {after : List JumpEntry}
    {p : Player} (h : InFrontOf size i r count after p) : r.opening ≤ r.close := by
  obtain ⟨_, e, hs, -, rfl, -⟩ := h.entry
  exact (h.inOrder.tidy.stretch e (by simp [hs])).opening_le_close

/-- Up to the jump back everything is played in order. -/
theorem InFrontOf.play {size i count event : Nat} {r : Stretch} {after : List JumpEntry}
    {p q : Player} (h : InFrontOf size i r count after p) (hturn : Turn size p (.play event) q) :
    event < r.close ∧ InFrontOf size i r count after q := by
  have hnext := h.inOrder.turn hturn
  obtain ⟨before, e, hs, hi, hstretch, hskips, hevent⟩ := h.entry
  have hmem : e ∈ p.jumps.entries := by simp [hs]
  have hclose := h.opening_le_close
  cases hturn with
  | play hlt hf =>
      have hne := JumpEntry.ne_of_follow?_eq_none (JumpTable.follow?_eq_none.mp hf e hmem)
      rw [hstretch] at hne
      dsimp only at hevent
      refine ⟨by omega, hnext, before, e, hs, hi, hstretch, hskips, ?_⟩
      dsimp only
      omega

theorem InFrontOf.turn {size i count : Nat} {r : Stretch} {after : List JumpEntry} {p q : Player}
    {move : Move} (h : InFrontOf size i r count after p) (hr : r.opening < r.stop)
    (hturn : Turn size p move q) :
    InFrontOf size i r count after q ∨
      q.InOrder size ∧ q.event = r.stop ∧
        ∃ before, AfterSkip i r count (before ++ after) q ∧
          returnsOver r.opening (before ++ after) = returnsOver r.opening after := by
  have hnext := h.inOrder.turn hturn
  obtain ⟨before, e, hs, hi, hstretch, hskips, hevent⟩ := h.entry
  have htidy := h.inOrder.tidy
  rw [hs] at htidy
  have hown := htidy.stretch e (by simp)
  have hstart := hown.start_le_opening
  have hclose := hown.opening_le_close
  have hstop := hown.close_le_stop
  rw [hstretch] at hstart hclose hstop
  cases hturn with
  | play hlt hf => exact .inl (h.play (.play hlt hf)).2
  | jump hlt hf =>
      dsimp only at hevent
      obtain ⟨front, d, d', back, rfl, hd, hs'⟩ | ⟨e', -, he, hs'⟩ |
        ⟨front, d, d', back, rfl, hquiet, hd, -⟩ := JumpTable.follow?_split hs hf
      · have htarget := htidy.target_le_of_mem_before (by simp) (JumpEntry.takes_of_follow? hd).2
        exact .inl ⟨hnext, _, e, hs', by simpa using hi, hstretch, hskips,
          .inl (hstretch ▸ htarget)⟩
      · obtain ⟨hstretch', htakes⟩ := JumpEntry.takes_of_follow? he
        have htidy' := htidy.replace hstretch'
        rw [hstretch] at hstretch'
        cases htakes with
        | back _ htarget _ hskips' =>
            rw [hstretch] at htarget
            refine .inl ⟨hnext, before, e', hs', hi, hstretch', hskips'.trans hskips, .inl ?_⟩
            dsimp only
            omega
        | skip _ _ htarget hpasses hskips' =>
            rw [hstretch] at htarget
            exact .inr ⟨hnext, htarget, before,
              ⟨⟨e', ⟨before, after, hs', hi, rfl⟩, hstretch', by omega, hpasses⟩,
                hstretch' ▸ htidy'.avoids, .inr (Nat.le_of_eq htarget.symm)⟩,
              hstretch' ▸ htidy'.returnsOver_eq⟩
      · have hbehind := htidy.stop_le_of_mem_after (by simp) (JumpEntry.takes_of_follow? hd).2
        have hne := (JumpEntry.ne_of_follow?_eq_none hquiet).1
        rw [hstretch] at hbehind hne
        omega

/-- A run either stays where each turn stays, or it comes through a place where turns leave. -/
theorem Run.stays_or_leaves {P Q : Player → Prop} {size : Nat} {p q : Player} {moves : List Move}
    (hturn : ∀ {p q move}, P p → Turn size p move q → P q ∨ Q q) (h : P p)
    (hrun : Run size p moves q) :
    P q ∨ ∃ mid first second, Q mid ∧ Run size p first mid ∧ Run size mid second q := by
  induction hrun with
  | nil => exact .inl h
  | cons ht hrun ih =>
      rcases hturn h ht with hp | hq
      · refine (ih hp).imp_right ?_
        rintro ⟨mid, first, second, hmid, hfirst, hsecond⟩
        exact ⟨mid, _, second, hmid, .cons ht hfirst, hsecond⟩
      · exact .inr ⟨_, _, _, hq, .cons ht (.nil _), hrun⟩

/-! ## Brackets that stay skipped -/

theorem JumpSlot.eq_of_reset_eq {s s' : JumpSlot} (h : s'.reset = s) :
    s'.required = s.required ∧ s'.triggerEvent = s.triggerEvent ∧
      s'.targetEvent = s.targetEvent := by
  subst h
  exact ⟨rfl, rfl, rfl⟩

/-- Once the second slot of an entry has been taken, no event from its trigger up to its target
is played any more. -/
def SoundTable.StaysSkipped {τ : Type} (t : SoundTable τ) (i : Nat) : Prop :=
  ∀ moves p, Run t.events.length t.start moves p →
    ∀ back skip rest, p.jumps.entries[i]? = some ⟨back :: skip :: rest⟩ → 0 < skip.applied →
      ∀ event ∈ playFrom t.events.length p.jumps p.event,
        event < skip.triggerEvent ∨ skip.targetEvent ≤ event

namespace SoundTable

variable {τ : Type} {t : SoundTable τ} {i : Nat} {back skip : JumpSlot} {rest : List JumpSlot}

/-- A run changes an entry only by counting. -/
theorem exists_slots {p : Player} {moves : List Move} {e : JumpEntry}
    (h : Run t.events.length t.start moves p)
    (ht : t.jumps.reset.entries[i]? = some ⟨back :: skip :: rest⟩)
    (hp : p.jumps.entries[i]? = some e) :
    ∃ back' skip' rest', e = ⟨back' :: skip' :: rest'⟩ ∧ skip'.reset = skip := by
  obtain ⟨slots⟩ := e
  have hstart : t.start.jumps.reset = t.jumps.reset := by
    simp [start, JumpTable.reset, JumpEntry.reset, JumpSlot.reset]
  have heq : p.jumps.reset.entries[i]? = some ⟨slots.map JumpSlot.reset⟩ := by
    simp [JumpTable.reset, JumpEntry.reset, hp]
  rw [h.reset_eq.trans hstart, ht] at heq
  injection heq with heq
  injection heq with heq
  obtain ⟨back', slots', rfl, -, heq⟩ := List.map_eq_cons_iff.mp heq.symm
  obtain ⟨skip', rest', rfl, hskip, -⟩ := List.map_eq_cons_iff.mp heq
  exact ⟨back', skip', rest', rfl, hskip⟩

/-- Before the first turn no skip has been taken. -/
theorem skips_eq_required (ht : t.jumps.reset.entries[i]? = some ⟨back :: skip :: rest⟩) :
    JumpEntry.skips ⟨back :: skip :: rest⟩ = skip.required := by
  obtain ⟨_, skip', _, heq, rfl⟩ := exists_slots (.nil _) ht ht
  injection heq with heq
  obtain ⟨-, heq⟩ := List.cons.inj heq
  have happlied : skip'.reset.applied = 0 := rfl
  show skip'.reset.required - skip'.reset.applied = skip'.reset.required
  rw [happlied, Nat.sub_zero]

theorem staysSkipped_of_le (ht : t.jumps.reset.entries[i]? = some ⟨back :: skip :: rest⟩)
    (hle : skip.targetEvent ≤ skip.triggerEvent) : t.StaysSkipped i := by
  intro moves p hrun back' skip' rest' hp _ event _
  obtain ⟨_, _, _, heq, hreset⟩ := exists_slots hrun ht hp
  obtain ⟨rfl, rfl, rfl⟩ : _ ∧ _ ∧ _ := by simpa using heq
  obtain ⟨-, htrigger, htarget⟩ := JumpSlot.eq_of_reset_eq hreset
  omega

/-- With a skip for every jump back over the opening, the bracket stays skipped. -/
theorem staysSkipped_of_returnsOver_lt
    (ht : t.jumps.reset.entries[i]? = some ⟨back :: skip :: rest⟩)
    (havoids : ∀ d ∈ t.jumps.reset.entries.eraseIdx i,
      d.stretch.Avoids (JumpEntry.stretch ⟨back :: skip :: rest⟩))
    (hlt : returnsOver skip.triggerEvent (t.jumps.reset.entries.eraseIdx i) < skip.required) :
    t.StaysSkipped i := by
  rcases Nat.lt_or_ge skip.triggerEvent skip.targetEvent with hr | hle
  · intro moves p hrun back' skip' rest' hp happlied event hevent
    obtain ⟨_, _, _, heq, hreset⟩ := exists_slots hrun ht hp
    obtain ⟨rfl, rfl, rfl⟩ : _ ∧ _ ∧ _ := by simpa using heq
    obtain ⟨hrequired, htrigger, htarget⟩ := JumpSlot.eq_of_reset_eq hreset
    rw [htrigger, htarget]
    have hbefore : BeforeSkip i (JumpEntry.stretch ⟨back :: skip :: rest⟩) (skip.required - 1)
        (returnsOver skip.triggerEvent (t.jumps.reset.entries.eraseIdx i)) t.start := by
      have hskips := skips_eq_required ht
      exact ⟨_, _, .of_getElem? ht, rfl, by omega, havoids, Nat.le_refl _⟩
    rcases hrun.stays_or_leaves BeforeSkip.turn hbefore with hstill |
      ⟨mid, first, second, ⟨others, hafter, hbound, hstop⟩, -, hsecond⟩
    · -- a skip that was taken is missing from those that are left
      obtain ⟨e, others, hholds, -, hskips, -⟩ := hstill
      obtain rfl := Option.some.inj (hholds.getElem?.symm.trans hp)
      have hskips : skip'.required - skip'.applied = skip.required - 1 + 1 := hskips
      omega
    · obtain ⟨moves', final, hrun', -, hplayed⟩ :=
        exists_run t.events.length p.jumps p.event
      refine hafter.not_played hr ?_ (hsecond.append hrun') event ?_
      · rw [arrivals, hstop, Stretch.ahead_of_lt hr]
        exact Nat.le_trans hbound (Nat.le_sub_one_of_lt hlt)
      · rw [← hplayed] at hevent
        rw [playedBy, List.filterMap_append]
        exact List.mem_append_right _ hevent
  · exact staysSkipped_of_le ht hle

section Tidy

variable (ht : t.jumps.reset.entries[i]? = some ⟨back :: skip :: rest⟩)
  (htidy : AreTidy t.jumps.reset.entries)
  (hinside : ∀ e ∈ t.jumps.reset.entries, e.stretch.close < t.events.length)
  (hrequired : 0 < skip.required)

include ht htidy hinside hrequired

theorem exists_inFrontOf_start :
    ∃ after, InFrontOf t.events.length i (JumpEntry.stretch ⟨back :: skip :: rest⟩)
        (skip.required - 1) after t.start ∧
      returnsOver skip.triggerEvent after =
        returnsOver skip.triggerEvent (t.jumps.reset.entries.eraseIdx i) := by
  have horder : t.start.InOrder t.events.length :=
    ⟨htidy, hinside, fun _ _ => .inr (Nat.zero_le _)⟩
  obtain ⟨before, after, hs, hi, hothers⟩ := Player.Holds.of_getElem? (p := t.start) ht
  rw [show t.start.jumps.entries = t.jumps.reset.entries from rfl] at hs hothers
  have hskips := skips_eq_required ht
  refine ⟨after, ⟨horder, before, _, hs, hi, rfl, by omega, .inl (Nat.zero_le _)⟩, ?_⟩
  rw [hs] at htidy
  rw [← hothers]
  exact htidy.returnsOver_eq.symm

/-- Where the entries follow each other, playback comes to every bracket and skips it. -/
theorem exists_afterSkip (hr : skip.triggerEvent < skip.targetEvent) :
    ∃ moves mid others, Run t.events.length t.start moves mid ∧
      mid.InOrder t.events.length ∧ mid.event = skip.targetEvent ∧
      AfterSkip i (JumpEntry.stretch ⟨back :: skip :: rest⟩) (skip.required - 1) others mid ∧
      returnsOver skip.triggerEvent others =
        returnsOver skip.triggerEvent (t.jumps.reset.entries.eraseIdx i) := by
  obtain ⟨moves, final, hrun, hstop, -⟩ := exists_run t.events.length t.jumps.reset 0
  obtain ⟨after, hfront, hafter⟩ := exists_inFrontOf_start ht htidy hinside hrequired
  rcases hrun.stays_or_leaves (fun h => h.turn hr) hfront with hstill |
    ⟨mid, first, second, ⟨horder, hevent, before, hskipped, hreturns⟩, hfirst, -⟩
  · -- playing goes on behind the bracket
    obtain ⟨_, e, hs, -, hstretch, -, hlt⟩ := hstill.entry
    have hmem : e ∈ final.jumps.entries := by simp [hs]
    have hopening := (hstill.inOrder.tidy.stretch e hmem).opening_le_close
    have hclose := hstill.inOrder.inside e hmem
    rw [hstretch] at hopening hclose
    omega
  · exact ⟨first, mid, _, hfirst, horder, hevent, hskipped, hreturns.trans hafter⟩

/-- If it has fewer skips than playback comes back to it, it is played again as a whole. -/
theorem exists_all_played (hr : skip.triggerEvent < skip.targetEvent)
    (hle : skip.required ≤ returnsOver skip.triggerEvent (t.jumps.reset.entries.eraseIdx i)) :
    ∃ moves mid others, Run t.events.length t.start moves mid ∧
      AfterSkip i (JumpEntry.stretch ⟨back :: skip :: rest⟩) (skip.required - 1) others mid ∧
      ∀ event, skip.triggerEvent ≤ event → event < skip.targetEvent →
        event < t.events.length → event ∈ playFrom t.events.length mid.jumps mid.event := by
  obtain ⟨moves, mid, others, hrun, horder, hevent, hafter, hreturns⟩ :=
    exists_afterSkip ht htidy hinside hrequired hr
  have hcount : skip.required - 1 <
      arrivals (JumpEntry.stretch ⟨back :: skip :: rest⟩) others mid.event := by
    rw [arrivals, hevent, Stretch.ahead_of_lt hr]
    exact Nat.lt_of_lt_of_le (Nat.sub_lt hrequired Nat.one_pos) (hreturns ▸ hle)
  obtain ⟨moves', final, hrun', hstop, hplayed⟩ := exists_run t.events.length mid.jumps mid.event
  exact ⟨moves, mid, others, hrun, hafter, hplayed ▸
    hafter.all_played hr horder hcount hrun' hstop⟩

theorem not_staysSkipped_of_le_returnsOver (hr : skip.triggerEvent < skip.targetEvent)
    (hle : skip.required ≤ returnsOver skip.triggerEvent (t.jumps.reset.entries.eraseIdx i)) :
    ¬ t.StaysSkipped i := by
  intro hstays
  obtain ⟨moves, mid, others, hrun, hafter, hall⟩ :=
    exists_all_played ht htidy hinside hrequired hr hle
  obtain ⟨e, hholds, -, hskips, -⟩ := hafter.entry
  obtain ⟨back', skip', rest', rfl, hreset⟩ := exists_slots hrun ht hholds.getElem?
  obtain ⟨hrequired', htrigger, htarget⟩ := JumpSlot.eq_of_reset_eq hreset
  have hskips : skip'.required - skip'.applied = skip.required - 1 := hskips
  have hmem := List.mem_of_getElem? ht
  have hlt : skip.triggerEvent < t.events.length :=
    Nat.lt_of_le_of_lt (htidy.stretch _ hmem).opening_le_close (hinside _ hmem)
  have houtside := hstays _ _ hrun _ _ _ hholds.getElem? (by omega) _
    (hall skip.triggerEvent (Nat.le_refl _) hr hlt)
  rw [htrigger, htarget] at houtside
  omega

theorem staysSkipped_iff_of_areTidy :
    t.StaysSkipped i ↔ skip.targetEvent ≤ skip.triggerEvent ∨
      returnsOver skip.triggerEvent (t.jumps.reset.entries.eraseIdx i) < skip.required := by
  constructor
  · intro hstays
    refine Decidable.or_iff_not_imp_left.mpr fun hr => Nat.lt_of_not_le fun hle => ?_
    exact not_staysSkipped_of_le_returnsOver ht htidy hinside hrequired (Nat.lt_of_not_le hr) hle
      hstays
  · rintro (hle | hlt)
    · exact staysSkipped_of_le ht hle
    · have hholds : t.start.Holds i _ _ := .of_getElem? ht
      obtain ⟨before, after, hs, -, hothers⟩ := hholds
      have hs : t.jumps.reset.entries = _ := hs
      refine staysSkipped_of_returnsOver_lt ht ?_ hlt
      rw [hs] at htidy
      exact hothers ▸ htidy.avoids

end Tidy

end SoundTable

end ScorePlayback
