import ScorePlayback.Proofs.Player.Endings
import ScorePlayback.Proofs.Player.Termination

/-! # The stretches of a table

An entry takes playback back to the start of its section, and later past its bracket. The events
at which it does so are its stretch. What other entries do to a bracket depends on where their
stretches lie: a table is in order if they follow each other. -/

namespace ScorePlayback

/-! ## What an entry does -/

/-- The events of an entry: `close` triggers the jump back to `start`, and `opening` triggers the
skip to `stop`. Without a skip, `opening` and `stop` are `close`. -/
structure Stretch where
  start : Nat
  opening : Nat
  close : Nat
  stop : Nat
deriving DecidableEq, Repr

namespace JumpEntry

def back? (e : JumpEntry) : Option JumpSlot := e.slots.head?

def skip? (e : JumpEntry) : Option JumpSlot := e.slots.tail.head?

def stretch (e : JumpEntry) : Stretch :=
  let close := (e.back?.map JumpSlot.triggerEvent).getD 0
  { start := (e.back?.map JumpSlot.targetEvent).getD 0
    opening := (e.skip?.map JumpSlot.triggerEvent).getD close
    close := close
    stop := (e.skip?.map JumpSlot.targetEvent).getD close }

/-- How often the jump back can still be taken. -/
def passes (e : JumpEntry) : Nat := (e.back?.map JumpSlot.remaining).getD 0

/-- How often the skip can still be taken. -/
def skips (e : JumpEntry) : Nat := (e.skip?.map JumpSlot.remaining).getD 0

/-- An entry takes playback away by its jump back, or by its skip once it cannot go back. -/
inductive Takes (e e' : JumpEntry) (event target : Nat) : Prop where
  | back (hevent : event = e.stretch.close) (htarget : target = e.stretch.start)
      (hpasses : e'.passes + 1 = e.passes) (hskips : e'.skips = e.skips)
  | skip (hused : e.passes = 0) (hevent : event = e.stretch.opening)
      (htarget : target = e.stretch.stop) (hpasses : e'.passes = 0)
      (hskips : e'.skips + 1 = e.skips)

variable {e e' : JumpEntry} {event target : Nat}

theorem takes_of_follow? (h : e.follow? event = some (target, e')) :
    e'.stretch = e.stretch ∧ e.Takes e' event target := by
  obtain ⟨slots⟩ := e
  obtain ⟨first, rest, hs, hx, ht, rfl, rfl⟩ | ⟨first, second, rest, hs, hx, hy, ht, rfl, rfl⟩ :=
    follow?_eq_some h
  · obtain rfl : slots = first :: rest := hs
    have hpos : first.remaining ≠ 0 := by simpa [JumpSlot.isExhausted_eq] using hx
    refine ⟨rfl, .back ht.symm rfl ?_ rfl⟩
    show first.apply.remaining + 1 = first.remaining
    rw [JumpSlot.remaining_apply]
    omega
  · obtain rfl : slots = first :: second :: rest := hs
    have hzero : first.remaining = 0 := by simpa [JumpSlot.isExhausted_eq] using hx
    have hpos : second.remaining ≠ 0 := by simpa [JumpSlot.isExhausted_eq] using hy
    refine ⟨rfl, .skip hzero ht.symm rfl hzero ?_⟩
    show second.apply.remaining + 1 = second.remaining
    rw [JumpSlot.remaining_apply]
    omega

/-- An entry that stays silent does not stand at the trigger of a slot that it could take. -/
theorem ne_of_follow?_eq_none (h : e.follow? event = none) :
    (0 < e.passes → event ≠ e.stretch.close) ∧
      (e.passes = 0 → 0 < e.skips → event ≠ e.stretch.opening) := by
  obtain ⟨slots⟩ := e
  match slots with
  | [] => simp [passes, skips, back?, skip?]
  | [first] =>
      refine ⟨fun hpos hevent => ?_, by simp [skips, skip?]⟩
      exact Option.some_ne_none _
        ((follow?_first (JumpSlot.not_isExhausted hpos) hevent.symm).symm.trans h)
  | first :: second :: rest =>
      refine ⟨fun hpos hevent => ?_, fun hzero hpos hevent => ?_⟩
      · exact Option.some_ne_none _
          ((follow?_first (JumpSlot.not_isExhausted hpos) hevent.symm).symm.trans h)
      · exact Option.some_ne_none _ ((follow?_second (JumpSlot.isExhausted_of_eq hzero)
          (JumpSlot.not_isExhausted hpos) hevent.symm).symm.trans h)

end JumpEntry

/-- A jump changes no stretch. -/
theorem forall_stretch_replace {P : Stretch → Prop} {front back : List JumpEntry} {e e' : JumpEntry}
    (he : e'.stretch = e.stretch) (h : ∀ d ∈ front ++ e :: back, P d.stretch) :
    ∀ d ∈ front ++ e' :: back, P d.stretch := by
  simp only [List.forall_mem_append, List.forall_mem_cons] at h ⊢
  exact ⟨h.1, he ▸ h.2.1, h.2.2⟩

/-! ## Coming back to a bracket -/

/-- The jumps of the first stretch lead to no place inside the bracket of the second one, and its
skip does not go back over the opening. -/
structure Stretch.Avoids (d r : Stretch) : Prop where
  start : d.start ≤ r.opening ∨ r.stop ≤ d.start
  stop : d.opening ≤ r.opening ∧ d.stop ≤ r.opening ∨ r.stop ≤ d.stop

instance (d r : Stretch) : Decidable (d.Avoids r) :=
  decidable_of_iff ((d.start ≤ r.opening ∨ r.stop ≤ d.start) ∧
      (d.opening ≤ r.opening ∧ d.stop ≤ r.opening ∨ r.stop ≤ d.stop))
    ⟨fun ⟨h₁, h₂⟩ => ⟨h₁, h₂⟩, fun ⟨h₁, h₂⟩ => ⟨h₁, h₂⟩⟩

/-- How often an entry can still go back over an event. -/
def JumpEntry.returns (event : Nat) (e : JumpEntry) : Nat :=
  if e.stretch.start ≤ event ∧ event < e.stretch.close then e.passes else 0

def returnsOver (event : Nat) (entries : List JumpEntry) : Nat :=
  entries.foldr (fun e total => e.returns event + total) 0

theorem returnsOver_append (event : Nat) (first second : List JumpEntry) :
    returnsOver event (first ++ second) = returnsOver event first + returnsOver event second := by
  induction first with
  | nil => simp [returnsOver]
  | cons e first ih =>
      simp only [returnsOver, List.cons_append, List.foldr_cons] at ih ⊢
      rw [ih, Nat.add_assoc]

theorem returnsOver_middle (event : Nat) (front back : List JumpEntry) (e : JumpEntry) :
    returnsOver event (front ++ e :: back) =
      e.returns event + returnsOver event (front ++ back) := by
  rw [returnsOver_append, returnsOver_append]
  simp only [returnsOver, List.foldr_cons]
  omega

theorem returnsOver_eq_zero {event : Nat} {entries : List JumpEntry}
    (h : ∀ e ∈ entries, e.returns event = 0) : returnsOver event entries = 0 := by
  induction entries with
  | nil => rfl
  | cons e entries ih =>
      obtain ⟨he, hentries⟩ := List.forall_mem_cons.mp h
      simpa [returnsOver, he] using ih hentries

/-- From an event in front of a bracket, playback arrives at it once more. -/
def Stretch.ahead (r : Stretch) (event : Nat) : Nat := if event ≤ r.opening then 1 else 0

theorem Stretch.ahead_of_le {r : Stretch} {event : Nat} (h : event ≤ r.opening) :
    r.ahead event = 1 := if_pos h

theorem Stretch.ahead_of_lt {r : Stretch} {event : Nat} (h : r.opening < event) :
    r.ahead event = 0 := if_neg (Nat.not_le.mpr h)

namespace JumpEntry.Takes

variable {d d' : JumpEntry} {r : Stretch} {event target : Nat}

theorem lands_outside (h : d.Takes d' event target) (havoids : d.stretch.Avoids r) :
    target ≤ r.opening ∨ r.stop ≤ target := by
  obtain ⟨hstart, hstop⟩ := havoids
  cases h with
  | back _ htarget _ _ => omega
  | skip _ _ htarget _ _ => omega

/-- A jump back over the opening is one arrival: it is used up, and playback stands in front of
the bracket. Nothing is lost where the jump does not lead over the bracket. -/
theorem returns_add_ahead (h : d.Takes d' event target) (hs : d'.stretch = d.stretch)
    (havoids : d.stretch.Avoids r) (hr : r.opening < r.stop) :
    d'.returns r.opening + r.ahead target ≤ d.returns r.opening + r.ahead event ∧
      ((event ≤ r.opening → target ≤ r.opening) →
        d'.returns r.opening + r.ahead target = d.returns r.opening + r.ahead event) := by
  obtain ⟨hstart, hstop⟩ := havoids
  simp only [JumpEntry.returns, Stretch.ahead, hs]
  cases h with
  | back hevent htarget hpasses _ => split <;> split <;> split <;> omega
  | skip hused hevent htarget hpasses _ => split <;> split <;> split <;> omega

theorem returns_le (h : d.Takes d' event target) (hs : d'.stretch = d.stretch) (opening : Nat) :
    d'.returns opening ≤ d.returns opening := by
  simp only [JumpEntry.returns, hs]
  cases h <;> split <;> omega

end JumpEntry.Takes

/-! ## Tables whose entries follow each other -/

namespace Stretch

/-- A bracket lies behind the start of its section and ends behind its jump back. -/
structure IsTidy (r : Stretch) : Prop where
  start_le_opening : r.start ≤ r.opening
  opening_le_close : r.opening ≤ r.close
  close_le_stop : r.close ≤ r.stop

instance (r : Stretch) : Decidable r.IsTidy :=
  decidable_of_iff (r.start ≤ r.opening ∧ r.opening ≤ r.close ∧ r.close ≤ r.stop)
    ⟨fun ⟨h₁, h₂, h₃⟩ => ⟨h₁, h₂, h₃⟩, fun ⟨h₁, h₂, h₃⟩ => ⟨h₁, h₂, h₃⟩⟩

/-- The second stretch is behind the first one, or it is a later bracket of the same section. -/
def Precedes (r s : Stretch) : Prop :=
  r.stop ≤ s.start ∨ (s.start = r.start ∧ r.stop ≤ s.opening)

instance (r s : Stretch) : Decidable (r.Precedes s) :=
  inferInstanceAs (Decidable (_ ∨ _))

theorem Precedes.stop_le_opening {r s : Stretch} (h : r.Precedes s) (hs : s.IsTidy) :
    r.stop ≤ s.opening := by
  rcases h with h | ⟨-, h⟩
  · exact Nat.le_trans h hs.start_le_opening
  · exact h

theorem Precedes.start_le {r s : Stretch} (h : r.Precedes s) (hr : r.IsTidy) :
    r.start ≤ s.start := by
  have := hr.start_le_opening
  have := hr.opening_le_close
  have := hr.close_le_stop
  rcases h with h | ⟨h, -⟩ <;> omega

end Stretch

/-- The entries of a list follow each other: none of their brackets overlap. -/
structure AreTidy (entries : List JumpEntry) : Prop where
  stretch : ∀ e ∈ entries, e.stretch.IsTidy
  pairwise : entries.Pairwise fun d e => d.stretch.Precedes e.stretch

instance (entries : List JumpEntry) : Decidable (AreTidy entries) :=
  decidable_of_iff ((∀ e ∈ entries, e.stretch.IsTidy) ∧
      entries.Pairwise fun d e => d.stretch.Precedes e.stretch)
    ⟨fun ⟨h₁, h₂⟩ => ⟨h₁, h₂⟩, fun ⟨h₁, h₂⟩ => ⟨h₁, h₂⟩⟩

namespace AreTidy

variable {before after : List JumpEntry} {e e' : JumpEntry}

/-- Only the events of the entries matter. -/
theorem replace (h : AreTidy (before ++ e :: after)) (he : e'.stretch = e.stretch) :
    AreTidy (before ++ e' :: after) := by
  refine ⟨forall_stretch_replace he h.stretch, ?_⟩
  have hpairs := h.pairwise
  simp only [List.pairwise_append, List.pairwise_cons, List.forall_mem_cons] at hpairs ⊢
  exact ⟨hpairs.1, ⟨he ▸ hpairs.2.1.1, hpairs.2.1.2⟩,
    fun d hd => ⟨he ▸ (hpairs.2.2 d hd).1, (hpairs.2.2 d hd).2⟩⟩

theorem precedes_of_mem_before (h : AreTidy (before ++ e :: after)) :
    ∀ d ∈ before, d.stretch.Precedes e.stretch := fun d hd =>
  (List.pairwise_append.mp h.pairwise).2.2 d hd e (by simp)

theorem precedes_of_mem_after (h : AreTidy (before ++ e :: after)) :
    ∀ d ∈ after, e.stretch.Precedes d.stretch := fun d hd =>
  (List.pairwise_cons.mp (List.pairwise_append.mp h.pairwise).2.1).1 d hd

theorem avoids (h : AreTidy (before ++ e :: after)) :
    ∀ d ∈ before ++ after, d.stretch.Avoids e.stretch := by
  have hown := h.stretch e (by simp)
  intro d hd
  rcases List.mem_append.mp hd with hd | hd
  · have htidy := h.stretch d (by simp [hd])
    have hprecedes := (h.precedes_of_mem_before d hd).stop_le_opening hown
    have := htidy.start_le_opening
    have := htidy.opening_le_close
    have := htidy.close_le_stop
    exact ⟨.inl (by omega), .inl ⟨by omega, hprecedes⟩⟩
  · have htidy := h.stretch d (by simp [hd])
    have hprecedes := (h.precedes_of_mem_after d hd).stop_le_opening htidy
    have := htidy.opening_le_close
    have := htidy.close_le_stop
    have := hown.start_le_opening
    refine ⟨?_, .inr (by omega)⟩
    rcases h.precedes_of_mem_after d hd with hbehind | ⟨hsame, -⟩
    · exact .inr hbehind
    · exact .inl (by omega)

section Others

variable {d d' : JumpEntry} {event target : Nat}

theorem target_le_of_mem_before (h : AreTidy (before ++ e :: after)) (hd : d ∈ before)
    (htakes : d.Takes d' event target) : target ≤ e.stretch.opening := by
  have hown := h.stretch e (by simp)
  have hprecedes := h.precedes_of_mem_before d hd
  have hstart := hprecedes.start_le (h.stretch d (by simp [hd]))
  have hstop := hprecedes.stop_le_opening hown
  have hopening := hown.start_le_opening
  cases htakes with
  | back _ htarget _ _ => omega
  | skip _ _ htarget _ _ => omega

theorem stop_le_of_mem_after (h : AreTidy (before ++ e :: after)) (hd : d ∈ after)
    (htakes : d.Takes d' event target) : e.stretch.stop ≤ event := by
  have htidy := h.stretch d (by simp [hd])
  have hopening := (h.precedes_of_mem_after d hd).stop_le_opening htidy
  have hclose := htidy.opening_le_close
  cases htakes with
  | back hevent _ _ _ => omega
  | skip _ hevent _ _ _ => omega

/-- No jump of another entry leads over a bracket. -/
theorem target_le (h : AreTidy (before ++ e :: after)) (hd : d ∈ before ++ after)
    (htakes : d.Takes d' event target) (hstop : e.stretch.opening < e.stretch.stop)
    (hle : event ≤ e.stretch.opening) : target ≤ e.stretch.opening := by
  rcases List.mem_append.mp hd with hd | hd
  · exact h.target_le_of_mem_before hd htakes
  · have := h.stop_le_of_mem_after hd htakes
    omega

end Others

/-- Only the entries behind a bracket come back to it. -/
theorem returnsOver_eq (h : AreTidy (before ++ e :: after)) :
    returnsOver e.stretch.opening (before ++ after) = returnsOver e.stretch.opening after := by
  have hbefore : ∀ d ∈ before, d.returns e.stretch.opening = 0 := fun d hd => by
    have hclose := (h.stretch d (by simp [hd])).close_le_stop
    have hstop := (h.precedes_of_mem_before d hd).stop_le_opening (h.stretch e (by simp))
    exact if_neg (by omega)
  rw [returnsOver_append, returnsOver_eq_zero hbefore, Nat.zero_add]

/-- Behind its opening, nothing takes playback out of a bracket that has no jump back left. -/
theorem follow?_eq_none_of_inside (h : AreTidy (before ++ e :: after)) (hpasses : e.passes = 0)
    {event : Nat} (hopening : e.stretch.opening < event) (hstop : event < e.stretch.stop) :
    ∀ d ∈ before ++ e :: after, d.follow? event = none := by
  intro d hd
  have htidy := h.stretch d hd
  have hclose := htidy.opening_le_close
  cases hf : d.follow? event with
  | none => rfl
  | some answer =>
      have htakes := (JumpEntry.takes_of_follow? hf).2
      rcases List.mem_append.mp hd with hd | hd
      · have hle := (h.precedes_of_mem_before d hd).stop_le_opening (h.stretch e (by simp))
        have hstop' := htidy.close_le_stop
        cases htakes <;> omega
      · rcases List.mem_cons.mp hd with rfl | hd
        · cases htakes <;> omega
        · have hle := (h.precedes_of_mem_after d hd).stop_le_opening htidy
          cases htakes <;> omega

end AreTidy

/-! ## One place of a table -/

/-- The entry that answers is in front of a given entry, or this one, or behind it. -/
theorem JumpTable.follow?_split {t t' : JumpTable} {before after : List JumpEntry} {e : JumpEntry}
    {event target : Nat} (ht : t.entries = before ++ e :: after)
    (hf : t.follow? event = some (target, t')) :
    (∃ front d d' back, before = front ++ d :: back ∧ d.follow? event = some (target, d') ∧
      t'.entries = (front ++ d' :: back) ++ e :: after) ∨
    (∃ e', (∀ d ∈ before, d.follow? event = none) ∧ e.follow? event = some (target, e') ∧
      t'.entries = before ++ e' :: after) ∨
    (∃ front d d' back, after = front ++ d :: back ∧ e.follow? event = none ∧
      d.follow? event = some (target, d') ∧ t'.entries = before ++ e :: (front ++ d' :: back)) := by
  obtain ⟨front, d, d', back, hs, hquiet, hd, rfl⟩ := follow?_eq_some.mp hf
  rcases List.append_eq_append_iff.mp (ht.symm.trans hs) with
    ⟨middle, rfl, hmiddle⟩ | ⟨middle, rfl, hmiddle⟩
  · cases middle with
    | nil =>
        obtain ⟨rfl, rfl⟩ := List.cons.inj hmiddle
        exact .inr (.inl ⟨d', by simpa using hquiet, hd, by simp⟩)
    | cons first middle =>
        obtain ⟨rfl, rfl⟩ := List.cons.inj hmiddle
        exact .inr (.inr ⟨middle, d, d', back, rfl, hquiet e (by simp), hd, by simp⟩)
  · cases middle with
    | nil =>
        obtain ⟨rfl, rfl⟩ := List.cons.inj hmiddle
        exact .inr (.inl ⟨d', by simpa using hquiet, hd, by simp⟩)
    | cons first middle =>
        obtain ⟨rfl, rfl⟩ := List.cons.inj hmiddle
        exact .inl ⟨front, d, d', middle, rfl, hd, by simp⟩

/-- The entry at a place, and all the other ones. -/
def Player.Holds (p : Player) (i : Nat) (e : JumpEntry) (others : List JumpEntry) : Prop :=
  ∃ before after, p.jumps.entries = before ++ e :: after ∧ before.length = i ∧
    before ++ after = others

namespace Player.Holds

variable {p q : Player} {i : Nat} {e : JumpEntry} {others : List JumpEntry}

theorem of_getElem? (h : p.jumps.entries[i]? = some e) :
    p.Holds i e (p.jumps.entries.eraseIdx i) := by
  obtain ⟨hlt, rfl⟩ := List.getElem?_eq_some_iff.mp h
  refine ⟨p.jumps.entries.take i, p.jumps.entries.drop (i + 1), ?_, ?_, ?_⟩
  · rw [List.getElem_cons_drop, List.take_append_drop]
  · rw [List.length_take, Nat.min_eq_left (Nat.le_of_lt hlt)]
  · rw [List.eraseIdx_eq_take_drop_succ]

theorem getElem? (h : p.Holds i e others) : p.jumps.entries[i]? = some e := by
  obtain ⟨before, after, hs, rfl, -⟩ := h
  simp [hs]

theorem mem (h : p.Holds i e others) : e ∈ p.jumps.entries :=
  List.mem_of_getElem? h.getElem?

/-- Either the entry at the place answers, or one of the others does. -/
theorem jump {size event target : Nat} (h : p.Holds i e others)
    (hturn : Turn size p (.jump event target) q) :
    p.event = event ∧ q.event = target ∧
    ((∃ e', e'.stretch = e.stretch ∧ e.Takes e' event target ∧ q.Holds i e' others) ∨
      ∃ front d d' back, others = front ++ d :: back ∧ d'.stretch = d.stretch ∧
        d.Takes d' event target ∧ q.Holds i e (front ++ d' :: back)) := by
  obtain ⟨before, after, hs, hi, rfl⟩ := h
  cases hturn with
  | jump hlt hf =>
      refine ⟨rfl, rfl, ?_⟩
      obtain ⟨front, d, d', back, rfl, hd, hs'⟩ | ⟨e', -, he, hs'⟩ |
        ⟨front, d, d', back, rfl, -, hd, hs'⟩ := JumpTable.follow?_split hs hf
      · obtain ⟨hstretch, htakes⟩ := JumpEntry.takes_of_follow? hd
        refine .inr ⟨front, d, d', back ++ after, by simp, hstretch, htakes, _, _, hs', ?_, by simp⟩
        simpa using hi
      · obtain ⟨hstretch, htakes⟩ := JumpEntry.takes_of_follow? he
        exact .inl ⟨e', hstretch, htakes, before, after, hs', hi, rfl⟩
      · obtain ⟨hstretch, htakes⟩ := JumpEntry.takes_of_follow? hd
        exact .inr ⟨before ++ front, d, d', back, by simp, hstretch, htakes, before, _, hs', hi,
          by simp⟩

theorem play {size event : Nat} (h : p.Holds i e others) (hturn : Turn size p (.play event) q) :
    p.event = event ∧ q.event = event + 1 ∧ e.follow? event = none ∧ q.Holds i e others := by
  cases hturn with
  | play hlt hf => exact ⟨rfl, rfl, JumpTable.follow?_eq_none.mp hf e h.mem, h⟩

end Player.Holds

/-! ## Playing in order -/

/-- No jump back that can still be taken has been passed. -/
def NotPast (entries : List JumpEntry) (event : Nat) : Prop :=
  ∀ e ∈ entries, e.passes = 0 ∨ event ≤ e.stretch.close

theorem NotPast.play {entries : List JumpEntry} {event : Nat} (h : NotPast entries event)
    (hquiet : ∀ e ∈ entries, e.follow? event = none) : NotPast entries (event + 1) := by
  intro e he
  have hne := (JumpEntry.ne_of_follow?_eq_none (hquiet e he)).1
  rcases h e he with hpasses | hle
  · exact .inl hpasses
  · omega

theorem NotPast.jump {front back : List JumpEntry} {e e' : JumpEntry} {event target : Nat}
    (h : NotPast (front ++ e :: back) event) (htidy : AreTidy (front ++ e :: back))
    (hquiet : ∀ d ∈ front, d.follow? event = none) (he : e.follow? event = some (target, e')) :
    NotPast (front ++ e' :: back) target := by
  obtain ⟨hstretch, htakes⟩ := JumpEntry.takes_of_follow? he
  have hown := htidy.stretch e (by simp)
  intro d hd
  cases htakes with
  | back hevent htarget hpasses hskips =>
      have hlt := Nat.le_trans hown.start_le_opening hown.opening_le_close
      rcases List.mem_append.mp hd with hd | hd
      · have := h d (by simp [hd])
        omega
      · rcases List.mem_cons.mp hd with rfl | hd
        · rw [hstretch]
          omega
        · have := h d (by simp [hd])
          omega
  | skip hused hevent htarget hpasses hskips =>
      rcases List.mem_append.mp hd with hd | hd
      · have htidy' := htidy.stretch d (by simp [hd])
        have hstop := (htidy.precedes_of_mem_before d hd).stop_le_opening hown
        have hne := (JumpEntry.ne_of_follow?_eq_none (hquiet d hd)).1
        have hclose := htidy'.close_le_stop
        have := h d (by simp [hd])
        omega
      · rcases List.mem_cons.mp hd with rfl | hd
        · exact .inl hpasses
        · have htidy' := htidy.stretch d (by simp [hd])
          have hstop := (htidy.precedes_of_mem_after d hd).stop_le_opening htidy'
          have hopening := htidy'.opening_le_close
          omega

/-- The entries follow each other, in front of the end, and none of them has been passed. -/
structure Player.InOrder (size : Nat) (p : Player) : Prop where
  tidy : AreTidy p.jumps.entries
  inside : ∀ e ∈ p.jumps.entries, e.stretch.close < size
  notPast : NotPast p.jumps.entries p.event

theorem Player.InOrder.turn {size : Nat} {p q : Player} {move : Move} (h : p.InOrder size)
    (hturn : Turn size p move q) : q.InOrder size := by
  cases hturn with
  | play hlt hf => exact ⟨h.tidy, h.inside, h.notPast.play (JumpTable.follow?_eq_none.mp hf)⟩
  | jump hlt hf =>
      obtain ⟨front, e, e', back, hs, hquiet, he, rfl⟩ := JumpTable.follow?_eq_some.mp hf
      obtain ⟨htidy, hinside, hpast⟩ := h
      rw [hs] at htidy hinside hpast
      have hstretch := (JumpEntry.takes_of_follow? he).1
      exact ⟨htidy.replace hstretch,
        forall_stretch_replace (P := fun r => r.close < size) hstretch hinside,
        hpast.jump htidy hquiet he⟩

end ScorePlayback
