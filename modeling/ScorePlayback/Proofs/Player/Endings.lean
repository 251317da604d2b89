import ScorePlayback.Proofs.Player.Run

/-! # Playing endings

Each ending but the last has an entry: a jump back from behind its bracket, taken once, and a
skip of the bracket. In every pass the player skips all brackets whose jumps back are taken,
plays the next one and takes its jump back. The entries count together: before each pass all
skips can be taken as many times as there are passes left. -/

namespace ScorePlayback

/-! ## The entry of an ending -/

/-- The jump back is taken, and the skip from `first` to `stop` can be taken `count` times. -/
def JumpEntry.IsUsed (first stop count : Nat) (e : JumpEntry) : Prop :=
  ∃ back skip, e.slots = [back, skip] ∧ back.isExhausted = true ∧
    skip.triggerEvent = first ∧ skip.targetEvent = stop ∧ skip.remaining = count

/-- The jump back from `stop` to `start` can be taken once. -/
def JumpEntry.IsFresh (start first stop count : Nat) (e : JumpEntry) : Prop :=
  ∃ back skip, e.slots = [back, skip] ∧ back.remaining = 1 ∧
    back.triggerEvent = stop ∧ back.targetEvent = start ∧
    skip.triggerEvent = first ∧ skip.targetEvent = stop ∧ skip.remaining = count

namespace JumpEntry

variable {start first stop count event : Nat} {e : JumpEntry}

theorem IsUsed.follow?_of_ne (h : e.IsUsed first stop count) (hne : event ≠ first) :
    e.follow? event = none := by
  obtain ⟨back, skip, hs, hback, htrigger, -, -⟩ := h
  simp [follow?, hs, hback, htrigger, hne.symm]

theorem IsUsed.follow?_skip (h : e.IsUsed first stop (count + 1)) :
    ∃ e', e.follow? first = some (stop, e') ∧ IsUsed first stop count e' := by
  obtain ⟨slots⟩ := e
  obtain ⟨back, skip, rfl, hback, rfl, rfl, hcount⟩ := h
  have hskip : skip.isExhausted = false := by simp [JumpSlot.isExhausted_eq, hcount]
  refine ⟨_, follow?_second hback hskip rfl, back, skip.apply, rfl, hback, rfl, rfl, ?_⟩
  rw [JumpSlot.remaining_apply, hcount]
  rfl

theorem IsFresh.follow?_of_ne (h : e.IsFresh start first stop count) (hne : event ≠ stop) :
    e.follow? event = none := by
  obtain ⟨back, skip, hs, hback, htrigger, -⟩ := h
  have hback' : back.isExhausted = false := by simp [JumpSlot.isExhausted_eq, hback]
  simp [follow?, hs, hback', htrigger, hne.symm]

theorem IsFresh.follow?_back (h : e.IsFresh start first stop count) :
    ∃ e', e.follow? stop = some (start, e') ∧ IsUsed first stop count e' := by
  obtain ⟨slots⟩ := e
  obtain ⟨back, skip, rfl, hback, rfl, rfl, rfl, hstop, hcount⟩ := h
  have hback' : back.isExhausted = false := by simp [JumpSlot.isExhausted_eq, hback]
  have happly : back.apply.isExhausted = true := by
    simp [JumpSlot.isExhausted_eq, JumpSlot.remaining_apply, hback]
  exact ⟨_, follow?_first hback' rfl, back.apply, skip, rfl, happly, rfl, hstop, hcount⟩

end JumpEntry

/-! ## The entries of a section -/

/-- The entries of brackets that follow each other up to `last`, all of them used, and all skips
still possible `count` times. -/
inductive UsedEndings (count : Nat) : Nat → List JumpEntry → Nat → Prop where
  | nil (first : Nat) : UsedEndings count first [] first
  | cons {first stop last : Nat} {e : JumpEntry} {entries : List JumpEntry}
      (he : e.IsUsed first stop count) (hlt : first < stop) :
      UsedEndings count stop entries last → UsedEndings count first (e :: entries) last

/-- The entries of brackets with these lengths from `first` on. The last bracket has none. The
skips are possible as many times as there are brackets behind. -/
inductive FreshEndings (start : Nat) : Nat → List Nat → List JumpEntry → Prop where
  | last (first span : Nat) : FreshEndings start first [span] []
  | cons {first span : Nat} {spans : List Nat} {e : JumpEntry} {entries : List JumpEntry}
      (he : e.IsFresh start first (first + span) spans.length) (hspan : 0 < span) :
      FreshEndings start (first + span) spans entries →
      FreshEndings start first (span :: spans) (e :: entries)

namespace UsedEndings

variable {count first last : Nat} {entries : List JumpEntry}

theorem le (h : UsedEndings count first entries last) : first ≤ last := by
  induction h with
  | nil => exact Nat.le_refl _
  | cons _ hlt _ ih => omega

theorem concat (h : UsedEndings count first entries last) {stop : Nat} {e : JumpEntry}
    (he : e.IsUsed last stop count) (hlt : last < stop) :
    UsedEndings count first (entries ++ [e]) stop := by
  induction h with
  | nil => exact .cons he hlt (.nil stop)
  | cons hd hlt' _ ih => exact .cons hd hlt' (ih he hlt)

/-- Only the starts of their brackets trigger used entries. -/
theorem follow?_eq_none (h : UsedEndings count first entries last) {event : Nat}
    (hevent : event < first ∨ last ≤ event) : ∀ e ∈ entries, e.follow? event = none := by
  induction h with
  | nil => simp
  | cons he hlt hrest ih =>
      have hle := hrest.le
      exact List.forall_mem_cons.mpr ⟨he.follow?_of_ne (by omega), ih (by omega)⟩

/-- At the first bracket all brackets are skipped, one after the other. -/
theorem playFrom_skip (h : UsedEndings (count + 1) first entries last) {size : Nat}
    (hsize : last ≤ size) {before after : List JumpEntry} {notices : List VoltaNotice}
    (hbefore : ∀ d ∈ before, ∀ event, first ≤ event → d.follow? event = none) :
    ∃ entries', UsedEndings count first entries' last ∧
      playFrom size ⟨before ++ entries ++ after, notices⟩ first =
        playFrom size ⟨before ++ entries' ++ after, notices⟩ last := by
  induction h generalizing before with
  | nil first => exact ⟨[], .nil first, rfl⟩
  | @cons first stop last e entries he hlt hrest ih =>
      obtain ⟨e', hfollow, he'⟩ := he.follow?_skip
      have hjump : JumpTable.follow? ⟨before ++ e :: entries ++ after, notices⟩ first =
          some (stop, ⟨before ++ e' :: (entries ++ after), notices⟩) :=
        JumpTable.follow?_eq_some.mpr ⟨before, e, e', entries ++ after, by simp,
          fun d hd => hbefore d hd first (Nat.le_refl _), hfollow, rfl⟩
      have hbefore' : ∀ d ∈ before ++ [e'], ∀ event, stop ≤ event → d.follow? event = none := by
        intro d hd event hevent
        rcases List.mem_append.mp hd with hd | hd
        · exact hbefore d hd event (by omega)
        · rw [List.mem_singleton.mp hd]
          exact he'.follow?_of_ne (by omega)
      obtain ⟨entries', hused, hplay⟩ := ih hsize hbefore'
      refine ⟨e' :: entries', .cons he' hlt hused, ?_⟩
      rw [playFrom_of_jump (by have := hrest.le; omega) hjump]
      simpa using hplay

end UsedEndings

/-- Before the first bracket ends nothing goes back. -/
theorem FreshEndings.follow?_eq_none {start first span : Nat} {spans : List Nat}
    {entries : List JumpEntry} (h : FreshEndings start first (span :: spans) entries) {event : Nat}
    (hevent : event < first + span) : ∀ e ∈ entries, e.follow? event = none := by
  generalize hall : span :: spans = all at h
  induction h generalizing span spans with
  | last => simp
  | @cons first span' spans' e entries he hspan hrest ih =>
      obtain ⟨rfl, rfl⟩ := List.cons.inj hall
      refine List.forall_mem_cons.mpr ⟨he.follow?_of_ne (by omega), ?_⟩
      cases spans with
      | nil => cases hrest
      | cons next spans => exact ih (by omega) rfl

theorem FreshEndings.follow?_of_lt {start first event : Nat} {spans : List Nat}
    {entries : List JumpEntry} (h : FreshEndings start first spans entries) (hevent : event < first) :
    ∀ e ∈ entries, e.follow? event = none := by
  cases h with
  | last => simp
  | cons he hspan hrest => exact (FreshEndings.cons he hspan hrest).follow?_eq_none (by omega)

/-! ## Passes -/

/-- The measures of brackets with these lengths, from a measure on. -/
def bracketMeasures : Nat → List Nat → List (List Nat)
  | _, [] => []
  | first, span :: spans => List.range' first span :: bracketMeasures (first + span) spans

theorem le_foldl_add (numbers : List Nat) (start : Nat) : start ≤ numbers.foldl (· + ·) start := by
  induction numbers generalizing start with
  | nil => exact Nat.le_refl _
  | cons n numbers ih => exact Nat.le_trans (Nat.le_add_right start n) (ih (start + n))

theorem lt_of_mem_bracketMeasures {first : Nat} {spans : List Nat} :
    ∀ bracket ∈ bracketMeasures first spans, ∀ measure ∈ bracket,
      measure < spans.foldl (· + ·) first := by
  induction spans generalizing first with
  | nil => simp [bracketMeasures]
  | cons span spans ih =>
      refine List.forall_mem_cons.mpr ⟨fun measure hm => ?_, ih⟩
      exact Nat.lt_of_lt_of_le (List.mem_range'_1.mp hm).2 (le_foldl_add spans (first + span))

/-- A pass up to the end of the first bracket that has not been played. -/
theorem playFrom_pass {size start opening first span count : Nat} {used fresh : List JumpEntry}
    (notices : List VoltaNotice) (hused : UsedEndings (count + 1) opening used first)
    (hfresh : ∀ event, event < first + span → ∀ e ∈ fresh, e.follow? event = none)
    (hstart : start ≤ opening) (hsize : first + span ≤ size) :
    ∃ used', UsedEndings count opening used' first ∧
      playFrom size ⟨used ++ fresh, notices⟩ start =
        List.range' start (opening - start) ++ List.range' first span
          ++ playFrom size ⟨used' ++ fresh, notices⟩ (first + span) := by
  have hle := hused.le
  obtain ⟨used', hused', hskip⟩ : ∃ used', UsedEndings count opening used' first ∧
      playFrom size ⟨[] ++ used ++ fresh, notices⟩ opening =
        playFrom size ⟨[] ++ used' ++ fresh, notices⟩ first :=
    hused.playFrom_skip (by omega) (by simp)
  refine ⟨used', hused', ?_⟩
  have hbody : ∀ event, start ≤ event → event < start + (opening - start) →
      JumpTable.follow? ⟨used ++ fresh, notices⟩ event = none := by
    intro event _ hevent
    refine JumpTable.follow?_eq_none.mpr fun e he => ?_
    rcases List.mem_append.mp he with he | he
    · exact hused.follow?_eq_none (.inl (by omega)) e he
    · exact hfresh event (by omega) e he
  have hbracket : ∀ event, first ≤ event → event < first + span →
      JumpTable.follow? ⟨used' ++ fresh, notices⟩ event = none := by
    intro event hevent hlt
    refine JumpTable.follow?_eq_none.mpr fun e he => ?_
    rcases List.mem_append.mp he with he | he
    · exact hused'.follow?_eq_none (.inr hevent) e he
    · exact hfresh event hlt e he
  rw [playFrom_of_quiet (opening - start) (by omega) hbody,
    show start + (opening - start) = opening by omega]
  rw [List.nil_append, List.nil_append] at hskip
  rw [hskip, playFrom_of_quiet span hsize hbracket, List.append_assoc]

/-- Every pass plays from the start of the section to its first bracket, and then one bracket.
The last pass goes on behind it. -/
theorem playFrom_endings {size start opening first : Nat} {spans : List Nat}
    {used fresh : List JumpEntry} (notices : List VoltaNotice)
    (hused : UsedEndings spans.length opening used first)
    (hfresh : FreshEndings start first spans fresh) (hstart : start ≤ opening)
    (hsize : spans.foldl (· + ·) first < size) :
    playFrom size ⟨used ++ fresh, notices⟩ start =
      ((bracketMeasures first spans).flatMap fun bracket =>
          List.range' start (opening - start) ++ bracket)
        ++ List.range' (spans.foldl (· + ·) first) (size - spans.foldl (· + ·) first) := by
  induction hfresh generalizing used with
  | last first span =>
      simp only [List.foldl_cons, List.foldl_nil] at hsize ⊢
      have hnone : ∀ event, event < first + span → ∀ e ∈ ([] : List JumpEntry),
          e.follow? event = none := by simp
      obtain ⟨used', hused', hpass⟩ :=
        playFrom_pass notices hused hnone hstart (Nat.le_of_lt hsize)
      rw [hpass, playFrom_of_quiet (size - (first + span)) (by omega),
        playFrom_of_size_le _ (by omega)]
      · simp [bracketMeasures]
      · intro event hevent _
        refine JumpTable.follow?_eq_none.mpr fun e he => ?_
        exact hused'.follow?_eq_none (.inr (by omega)) e (by simpa using he)
  | @cons first span spans e entries he hspan hrest ih =>
      have hlt : first + span < size := Nat.lt_of_le_of_lt (le_foldl_add spans _) hsize
      obtain ⟨used', hused', hpass⟩ := playFrom_pass notices hused
        (fun event (hevent : event < first + span) =>
          (FreshEndings.cons he hspan hrest).follow?_eq_none hevent) hstart (Nat.le_of_lt hlt)
      obtain ⟨e', hfollow, he'⟩ := he.follow?_back
      have hjump : JumpTable.follow? ⟨used' ++ e :: entries, notices⟩ (first + span) =
          some (start, ⟨used' ++ e' :: entries, notices⟩) :=
        JumpTable.follow?_eq_some.mpr ⟨used', e, e', entries, rfl,
          hused'.follow?_eq_none (.inr (by omega)), hfollow, rfl⟩
      have hnext := ih (hused'.concat he' (by omega)) hsize
      rw [List.append_assoc, List.singleton_append] at hnext
      rw [hpass, playFrom_of_jump hlt hjump, hnext, bracketMeasures, List.flatMap_cons,
        List.foldl_cons]
      simp only [List.append_assoc]

end ScorePlayback
