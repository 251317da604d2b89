import ScorePlayback.Proofs.Analysis.Barlines
import ScorePlayback.Proofs.Player.MeasureSequence
import ScorePlayback.Proofs.Repeat.Plan

/-! # Repeats without brackets

Where no bracket is written, the measures up to a repeat end are played, then as many times as
it says the measures from the start of its section. The plan says so, and the player does so:
while it repeats a section, the repeats before are used up and the later ones are not reached. -/

namespace ScorePlayback

/-! ## What the barlines say -/

namespace RepeatMark

def repeatEnd? : RepeatMark → Option RepeatEnd
  | .barline shape measure times => if shape.endsRepeat then some ⟨measure, times⟩ else none
  | _ => none

/-- The measure that a start of a repeat closes. -/
def repeatStart? : RepeatMark → Option Nat
  | .barline shape measure _ => if shape.startsRepeat then some measure else none
  | _ => none

end RepeatMark

def repeatEnds (marks : List RepeatMark) : List RepeatEnd := marks.filterMap RepeatMark.repeatEnd?

def repeatStarts (marks : List RepeatMark) : List Nat := marks.filterMap RepeatMark.repeatStart?

/-- The first measure behind measure `previous` and behind all starts of repeats in a list. -/
def startBehind (starts : List Nat) (previous : Nat) : Nat :=
  (starts.map (· + 1)).foldl max (previous + 1)

/-- The section that ends with measure `last` starts behind the repeat end before it, in measure
`previous` or 0, and behind the starts of repeats before `last`. -/
def sectionStart (starts : List Nat) (previous last : Nat) : Nat :=
  startBehind (starts.filter (· < last)) previous

/-- The measures from one to another. -/
def interval (first last : Nat) : List Nat := List.range' first (last + 1 - first)

/-- The measures of a score with `count` measures behind measure `previous`, as the repeat ends
behind it tell to play them. -/
def unrolledFrom (starts : List Nat) (count previous : Nat) : List RepeatEnd → List Nat
  | [] => interval (previous + 1) count
  | e :: rest =>
    interval (previous + 1) e.measure
      ++ (List.replicate e.times (interval (sectionStart starts previous e.measure) e.measure)).flatten
      ++ unrolledFrom starts count e.measure rest

/-! ## The plan -/

/-- Each repeat end leads back to the start of its section. -/
def sectionRepeats (starts : List Nat) (previous : Nat) : List RepeatEnd → List SectionRepeat
  | [] => []
  | e :: rest =>
    { back := ⟨e.measure, e.times, sectionStart starts previous e.measure⟩ }
      :: sectionRepeats starts e.measure rest

theorem startBehind_le_iff {starts : List Nat} {previous bound : Nat} :
    startBehind starts previous ≤ bound ↔ previous < bound ∧ ∀ q ∈ starts, q < bound := by
  rw [startBehind, foldl_max_le_iff, List.forall_mem_map]
  rfl

theorem startBehind_eq {starts : List Nat} {previous measure : Nat} (hprevious : previous ≤ measure)
    (hstarts : ∀ q ∈ starts, q ≤ measure) (hmem : previous = measure ∨ measure ∈ starts) :
    startBehind starts previous = measure + 1 := by
  refine Nat.le_antisymm (startBehind_le_iff.mpr ⟨Nat.lt_succ_of_le hprevious, fun q hq =>
    Nat.lt_succ_of_le (hstarts q hq)⟩) ?_
  obtain ⟨h₁, h₂⟩ := startBehind_le_iff.mp (Nat.le_refl (startBehind starts previous))
  rcases hmem with rfl | hmem
  · exact h₁
  · exact h₂ measure hmem

theorem sectionStart_le {starts : List Nat} {previous last : Nat} (h : previous < last) :
    sectionStart starts previous last ≤ last :=
  startBehind_le_iff.mpr ⟨h, fun _ hq => of_decide_eq_true (List.mem_filter.mp hq).2⟩

theorem sectionStart_pos (starts : List Nat) (previous last : Nat) :
    1 ≤ sectionStart starts previous last :=
  Nat.lt_of_le_of_lt (Nat.zero_le _) (startBehind_le_iff.mp (Nat.le_refl _)).1

namespace RepeatPlan

/-- Without brackets a repeat end adds its repeat, and it starts a section like a start. -/
theorem read_barline_of_brackets_nil {p : RepeatPlan} (hp : p.brackets = []) (shape : Barline)
    (measure times : Nat) :
    p.read (.barline shape measure times) =
      { p with
        sectionStart :=
          if shape.endsRepeat || shape.startsRepeat then measure + 1 else p.sectionStart
        repeats := p.repeats ++
          if shape.endsRepeat then [{ back := ⟨measure, times, p.sectionStart⟩ }] else [] } := by
  obtain ⟨sectionStart, brackets, repeats, notices⟩ := p
  obtain rfl : brackets = [] := hp
  rw [read, reach_of_brackets_nil rfl]
  cases hends : shape.endsRepeat <;> cases hstarts : shape.startsRepeat <;>
    simp [endRepeat, Bracket.claim?, closeSection]

end RepeatPlan

/-- Only the starts of repeats before its end matter to a section. -/
theorem sectionStart_append {before later : List Nat} {previous last : Nat}
    (hbefore : ∀ q ∈ before, q < last) (hlater : ∀ q ∈ later, last ≤ q) :
    sectionStart (before ++ later) previous last = startBehind before previous := by
  have h₁ : before.filter (· < last) = before :=
    List.filter_eq_self.mpr fun q hq => decide_eq_true (hbefore q hq)
  have h₂ : later.filter (· < last) = [] :=
    List.filter_eq_nil_iff.mpr fun q hq => by simpa using hlater q hq
  rw [sectionStart, List.filter_append, h₁, h₂, List.append_nil]

theorem le_of_mem_repeatStarts {marks : List RepeatMark} {bound : Nat}
    (h : ∀ measure ∈ (marks.filter RepeatMark.isBarline).map RepeatMark.measure, bound ≤ measure) :
    ∀ q ∈ repeatStarts marks, bound ≤ q := by
  intro q hq
  obtain ⟨mark, hmark, hstart⟩ := List.mem_filterMap.mp hq
  cases mark with
  | volta _ _ _ => simp [RepeatMark.repeatStart?] at hstart
  | music _ => simp [RepeatMark.repeatStart?] at hstart
  | barline shape measure times =>
      simp only [RepeatMark.repeatStart?, Option.ite_none_right_eq_some, Option.some.injEq] at hstart
      exact h q (List.mem_map.mpr ⟨_, List.mem_filter.mpr ⟨hmark, rfl⟩, hstart.2⟩)

theorem repeatStarts_cons_barline (shape : Barline) (measure times : Nat) (marks : List RepeatMark) :
    repeatStarts (.barline shape measure times :: marks) =
      (if shape.startsRepeat then [measure] else []) ++ repeatStarts marks := by
  cases hs : shape.startsRepeat <;> simp [repeatStarts, RepeatMark.repeatStart?, hs]

theorem repeatEnds_cons_barline (shape : Barline) (measure times : Nat) (marks : List RepeatMark) :
    repeatEnds (.barline shape measure times :: marks) =
      (if shape.endsRepeat then [⟨measure, times⟩] else []) ++ repeatEnds marks := by
  cases he : shape.endsRepeat <;> simp [repeatEnds, RepeatMark.repeatEnd?, he]

/-- The plan of marks without brackets. `before` are the starts that have been read, `previous`
is the last repeat end and `current` the last barline. -/
theorem foldl_read_of_no_volta {marks : List RepeatMark}
    (hvolta : ∀ mark ∈ marks, mark.isVolta = false) {p : RepeatPlan} (hp : p.brackets = [])
    {before : List Nat} {previous current : Nat} (hprevious : previous ≤ current)
    (hbefore : ∀ q ∈ before, q ≤ current)
    (hmeasures :
      (current :: (marks.filter RepeatMark.isBarline).map RepeatMark.measure).Pairwise (· < ·))
    (hstart : p.sectionStart = startBehind before previous) :
    (marks.foldl RepeatPlan.read p).brackets = [] ∧
      (marks.foldl RepeatPlan.read p).repeats =
        p.repeats ++ sectionRepeats (before ++ repeatStarts marks) previous (repeatEnds marks) := by
  induction marks generalizing p before previous current with
  | nil => simp [hp, repeatEnds, sectionRepeats]
  | cons mark marks ih =>
      have hrest : ∀ mark ∈ marks, mark.isVolta = false := fun m hm => hvolta m (by simp [hm])
      cases mark with
      | volta ending measure span => simp [RepeatMark.isVolta] at hvolta
      | music measure =>
          rw [List.foldl_cons, RepeatPlan.read, RepeatPlan.reach_of_brackets_nil hp]
          exact ih hrest hp hprevious hbefore hmeasures hstart
      | barline shape measure times =>
          obtain ⟨hcurrent, hlater⟩ := List.pairwise_cons.mp hmeasures
          have hlt : current < measure := hcurrent measure (List.mem_cons_self ..)
          have hthis : sectionStart (before ++ repeatStarts (.barline shape measure times :: marks))
              previous measure = p.sectionStart := by
            rw [hstart]
            refine sectionStart_append (fun q hq => (hbefore q hq).trans_lt hlt)
              (le_of_mem_repeatStarts fun m hm => ?_)
            rcases List.mem_cons.mp hm with rfl | hm
            · exact Nat.le_refl _
            · exact ((List.pairwise_cons.mp hlater).1 m hm).le
          have hbefore' : ∀ q ∈ before ++ (if shape.startsRepeat then [measure] else []),
              q ≤ measure := by
            intro q hq
            rcases List.mem_append.mp hq with hq | hq
            · exact (hbefore q hq).trans hlt.le
            · split at hq
              · exact (List.mem_singleton.mp hq).le
              · simp at hq
          rw [repeatStarts_cons_barline] at hthis ⊢
          rw [repeatEnds_cons_barline, List.foldl_cons, RepeatPlan.read_barline_of_brackets_nil hp]
          rw [← List.append_assoc] at hthis ⊢
          cases he : shape.endsRepeat with
          | true =>
              obtain ⟨h₁, h₂⟩ := ih hrest (p := { p with
                sectionStart := measure + 1
                repeats := p.repeats ++ [{ back := ⟨measure, times, p.sectionStart⟩ }] })
                hp (Nat.le_refl measure) hbefore' hlater
                (startBehind_eq (Nat.le_refl _) hbefore' (.inl rfl)).symm
              refine ⟨h₁, h₂.trans ?_⟩
              rw [if_pos rfl, List.singleton_append, sectionRepeats, hthis, List.append_assoc]
              rfl
          | false =>
              simp only [Bool.false_or, Bool.false_eq_true, if_false, List.nil_append, List.append_nil]
              refine ih hrest (p := { p with
                sectionStart := if shape.startsRepeat then measure + 1 else p.sectionStart })
                hp (hprevious.trans hlt.le) hbefore' hlater ?_
              cases hs : shape.startsRepeat with
              | true =>
                  rw [hs] at hbefore'
                  exact (startBehind_eq (hprevious.trans hlt.le) hbefore' (.inr (by simp))).symm
              | false => simpa using hstart

/-! ## The player -/

/-- The entry takes playback nowhere any more. -/
def JumpEntry.IsQuiet (e : JumpEntry) : Prop := ∀ event, e.follow? event = none

theorem JumpEntry.isQuiet_of_isExhausted {slot : JumpSlot} (h : slot.isExhausted = true) :
    JumpEntry.IsQuiet ⟨[slot]⟩ := by
  intro event
  simp [JumpEntry.follow?, h]

section Loop

variable {size : Nat} {done fresh : List JumpEntry} (notices : List VoltaNotice)

/-- Between quiet entries and entries that are not reached, playback goes on up to a slot. -/
theorem playFrom_to_trigger {slot : JumpSlot} (hdone : ∀ d ∈ done, d.IsQuiet)
    (hfresh : ∀ e ∈ fresh, ∀ s ∈ e.slots, slot.triggerEvent < s.triggerEvent)
    (hsize : slot.triggerEvent ≤ size) {first : Nat} (hfirst : first ≤ slot.triggerEvent) :
    playFrom size ⟨done ++ ⟨[slot]⟩ :: fresh, notices⟩ first =
      List.range' first (slot.triggerEvent - first)
        ++ playFrom size ⟨done ++ ⟨[slot]⟩ :: fresh, notices⟩ slot.triggerEvent := by
  have hstop : first + (slot.triggerEvent - first) = slot.triggerEvent := by omega
  rw [playFrom_of_quiet (slot.triggerEvent - first) (by omega), hstop]
  intro event _ hevent
  refine JumpTable.follow?_eq_none.mpr fun e he => ?_
  rcases List.mem_append.mp he with he | he
  · exact hdone e he event
  · refine JumpEntry.follow?_of_triggers_ne fun s hs => ?_
    rcases List.mem_cons.mp he with rfl | he
    · rw [List.mem_singleton.mp hs]
      omega
    · have := hfresh e he s hs
      omega

/-- A jump back repeats what lies behind its target as often as it can still be taken, and then
it is quiet. -/
theorem playFrom_loop {slot : JumpSlot} (hdone : ∀ d ∈ done, d.IsQuiet)
    (hfresh : ∀ e ∈ fresh, ∀ s ∈ e.slots, slot.triggerEvent < s.triggerEvent)
    (hsize : slot.triggerEvent < size) (htarget : slot.targetEvent ≤ slot.triggerEvent)
    {first : Nat} (hfirst : first ≤ slot.triggerEvent) :
    ∃ used : JumpEntry, used.IsQuiet ∧
      playFrom size ⟨done ++ ⟨[slot]⟩ :: fresh, notices⟩ first =
        List.range' first (slot.triggerEvent - first)
          ++ (List.replicate slot.remaining
              (List.range' slot.targetEvent (slot.triggerEvent - slot.targetEvent))).flatten
          ++ playFrom size ⟨done ++ used :: fresh, notices⟩ slot.triggerEvent := by
  induction hr : slot.remaining generalizing slot first with
  | zero =>
      have hx : slot.isExhausted = true := JumpSlot.isExhausted_of_eq hr
      refine ⟨⟨[slot]⟩, JumpEntry.isQuiet_of_isExhausted hx, ?_⟩
      rw [playFrom_to_trigger notices hdone hfresh hsize.le hfirst]
      simp
  | succ n ih =>
      have hx : slot.isExhausted = false := JumpSlot.not_isExhausted (hr ▸ Nat.succ_pos n)
      have happly : slot.apply.remaining = n := by
        rw [JumpSlot.remaining_apply, hr]
        rfl
      have hfresh' : ∀ e ∈ fresh, ∀ s ∈ e.slots, slot.apply.triggerEvent < s.triggerEvent := hfresh
      obtain ⟨used, hused, hplay⟩ := ih hfresh' hsize htarget htarget happly
      have hjump : JumpTable.follow? ⟨done ++ ⟨[slot]⟩ :: fresh, notices⟩ slot.triggerEvent =
          some (slot.targetEvent, ⟨done ++ ⟨[slot.apply]⟩ :: fresh, notices⟩) :=
        JumpTable.follow?_eq_some.mpr ⟨done, _, _, fresh, rfl, fun d hd => hdone d hd _,
          JumpEntry.follow?_first hx rfl, rfl⟩
      refine ⟨used, hused, ?_⟩
      rw [playFrom_to_trigger notices hdone hfresh hsize.le hfirst, playFrom_of_jump hsize hjump]
      refine (congrArg _ hplay).trans ?_
      rw [List.replicate_succ, List.flatten_cons]
      simp only [List.append_assoc]
      rfl

end Loop

theorem exists_of_mem_sectionRepeats {starts : List Nat} {previous : Nat} {ends : List RepeatEnd}
    {r : SectionRepeat} (h : r ∈ sectionRepeats starts previous ends) :
    r.skip = none ∧ 1 ≤ r.back.target ∧ ∃ e ∈ ends, r.back.measure = e.measure := by
  induction ends generalizing previous with
  | nil => simp [sectionRepeats] at h
  | cons e rest ih =>
      rcases List.mem_cons.mp h with rfl | h
      · exact ⟨rfl, sectionStart_pos _ _ _, e, by simp, rfl⟩
      · obtain ⟨hskip, htarget, e', he', hmeasure⟩ := ih h
        exact ⟨hskip, htarget, e', by simp [he'], hmeasure⟩

/-- The entries of later repeat ends have later triggers. -/
theorem lt_trigger_of_mem_sectionRepeats {starts : List Nat} {count measure : Nat}
    {ends : List RepeatEnd} (hbehind : ∀ e ∈ ends, measure < e.measure)
    (hlast : ∀ e ∈ ends, e.measure ≤ count) :
    ∀ entry ∈ (sectionRepeats starts measure ends).map
        (SectionRepeat.entry (List.range (count + 2))),
      ∀ slot ∈ entry.slots, measure + 1 < slot.triggerEvent := by
  intro entry hentry slot hslot
  obtain ⟨r, hr, rfl⟩ := List.mem_map.mp hentry
  obtain ⟨hskip, -, e, he, hmeasure⟩ := exists_of_mem_sectionRepeats hr
  have hle : r.back.measure ≤ count := hmeasure ▸ hlast e he
  rw [SectionRepeat.entry, hskip] at hslot
  rw [List.mem_singleton.mp hslot]
  calc measure + 1 < r.back.measure + 1 := Nat.succ_lt_succ (hmeasure ▸ hbehind e he)
    _ = _ := (RepeatPlan.firstEvent_range_of_le (Nat.succ_le_succ hle)).symm

/-- The player of the measures unrolls section by section. Those in front are used up. -/
theorem playFrom_sectionRepeats (starts : List Nat) {count previous : Nat} {ends : List RepeatEnd}
    {done : List JumpEntry} (hdone : ∀ d ∈ done, d.IsQuiet) (notices : List VoltaNotice)
    (hsorted : (previous :: ends.map RepeatEnd.measure).Pairwise (· < ·))
    (hprevious : previous ≤ count) (hlast : ∀ e ∈ ends, e.measure ≤ count) :
    playFrom (count + 2)
        ⟨done ++ (sectionRepeats starts previous ends).map
          (SectionRepeat.entry (List.range (count + 2))), notices⟩ (previous + 1) =
      unrolledFrom starts count previous ends ++ [count + 1] := by
  induction ends generalizing done previous with
  | nil =>
      rw [playFrom_of_quiet (count + 1 - previous) (by omega)]
      · rw [playFrom_of_size_le _ (by omega), List.append_nil, unrolledFrom, interval,
          show count + 1 - previous = count + 1 - (previous + 1) + 1 by omega,
          List.range'_1_concat, show previous + 1 + (count + 1 - (previous + 1)) = count + 1 by omega]
      · intro event _ _
        exact JumpTable.follow?_eq_none.mpr fun e he => hdone e (by simpa [sectionRepeats] using he) _
  | cons e rest ih =>
      obtain ⟨hbehind, hrest⟩ := List.pairwise_cons.mp hsorted
      have hlt : previous < e.measure := hbehind _ (by simp)
      have hcount : e.measure ≤ count := hlast e (by simp)
      have hstart : sectionStart starts previous e.measure ≤ e.measure := sectionStart_le hlt
      generalize hslot : Leap.backSlot (List.range (count + 2))
        ⟨e.measure, e.times, sectionStart starts previous e.measure⟩ = slot
      have htrigger : slot.triggerEvent = e.measure + 1 :=
        hslot ▸ RepeatPlan.firstEvent_range_of_le (Nat.succ_le_succ hcount)
      have htarget : slot.targetEvent = sectionStart starts previous e.measure :=
        hslot ▸ RepeatPlan.firstEvent_range_of_le (hstart.trans (Nat.le_succ_of_le hcount))
      have hremaining : slot.remaining = e.times := hslot ▸ rfl
      have hfresh : ∀ entry ∈ (sectionRepeats starts e.measure rest).map
          (SectionRepeat.entry (List.range (count + 2))),
          ∀ s ∈ entry.slots, slot.triggerEvent < s.triggerEvent := by
        rw [htrigger]
        exact lt_trigger_of_mem_sectionRepeats
          (fun e' he' => (List.pairwise_cons.mp hrest).1 _ (List.mem_map_of_mem he'))
          fun e' he' => hlast e' (by simp [he'])
      obtain ⟨used, hused, hplay⟩ := playFrom_loop notices hdone hfresh
        (show slot.triggerEvent < count + 2 by omega) (by omega)
        (show previous + 1 ≤ slot.triggerEvent by omega)
      have hdone' : ∀ d ∈ done ++ [used], d.IsQuiet :=
        List.forall_mem_append.mpr ⟨hdone, List.forall_mem_singleton.mpr hused⟩
      have hnext := ih hdone' hrest hcount fun e' he' => hlast e' (by simp [he'])
      rw [List.append_assoc, List.singleton_append, ← htrigger] at hnext
      rw [hnext, htrigger, htarget, hremaining, ← hslot] at hplay
      rw [unrolledFrom, List.append_assoc, interval, interval]
      exact hplay

theorem le_of_mem_unrolledFrom {starts : List Nat} {count previous : Nat} {ends : List RepeatEnd}
    (hlast : ∀ e ∈ ends, e.measure ≤ count) :
    ∀ measure ∈ unrolledFrom starts count previous ends, measure ≤ count := by
  have hinterval {first last measure : Nat} (h : measure ∈ interval first last) : measure ≤ last := by
    have := List.mem_range'_1.mp h
    omega
  induction ends generalizing previous with
  | nil => exact fun measure hm => hinterval hm
  | cons e rest ih =>
      intro measure hm
      have he := hlast e (by simp)
      simp only [unrolledFrom, List.mem_append, List.mem_flatten, List.mem_replicate] at hm
      obtain (hm | ⟨_, ⟨-, rfl⟩, hm⟩) | hm := hm
      · exact (hinterval hm).trans he
      · exact (hinterval hm).trans he
      · exact ih (fun e' he' => hlast e' (by simp [he'])) measure hm

/-! ## Scores -/

section Score

variable {τ : Type} [TimeValue τ]

theorem repeatEnds_filter (marks : List RepeatMark) :
    repeatEnds (marks.filter RepeatMark.isBarline) = repeatEnds marks := by
  rw [repeatEnds, List.filterMap_filter]
  refine List.filterMap_congr fun mark _ => ?_
  cases mark <;> rfl

theorem repeatStarts_filter (marks : List RepeatMark) :
    repeatStarts (marks.filter RepeatMark.isBarline) = repeatStarts marks := by
  rw [repeatStarts, List.filterMap_filter]
  refine List.filterMap_congr fun mark _ => ?_
  cases mark <;> rfl

omit [TimeValue τ] in
theorem le_lastMeasure {score : Score τ} {object : StaffObject τ}
    (h : object ∈ score.firstTimeline) : object.measure ≤ lastMeasure score := by
  refine (foldl_max_le_iff.mp (Nat.le_refl (lastMeasure score))).2 _ ?_
  unfold Score.firstTimeline at h
  split at h
  · simp at h
  · next first rest hi =>
    exact List.mem_flatMap.mpr ⟨first, by simp [hi], List.mem_map_of_mem h⟩

theorem repeatEnds_sublist (marks : List RepeatMark) :
    ((repeatEnds marks).map RepeatEnd.measure).Sublist
      ((marks.filter RepeatMark.isBarline).map RepeatMark.measure) := by
  induction marks with
  | nil => exact .slnil
  | cons mark marks ih =>
      cases mark with
      | volta ending measure span => exact ih
      | music measure => exact ih
      | barline shape measure times =>
          cases he : shape.endsRepeat with
          | true =>
              have hmark : RepeatMark.repeatEnd? (.barline shape measure times) =
                  some ⟨measure, times⟩ := by simp [RepeatMark.repeatEnd?, he]
              rw [repeatEnds, List.filterMap_cons_some hmark]
              exact ih.cons_cons measure
          | false =>
              have hmark : RepeatMark.repeatEnd? (.barline shape measure times) = none := by
                simp [RepeatMark.repeatEnd?, he]
              rw [repeatEnds, List.filterMap_cons_none hmark]
              exact ih.cons measure

theorem ofMarks_of_no_volta {marks : List RepeatMark}
    (hvolta : ∀ mark ∈ marks, mark.isVolta = false)
    (hmeasures :
      (0 :: (marks.filter RepeatMark.isBarline).map RepeatMark.measure).Pairwise (· < ·)) :
    (RepeatPlan.ofMarks marks).repeats = sectionRepeats (repeatStarts marks) 0 (repeatEnds marks) := by
  obtain ⟨hbrackets, hrepeats⟩ := foldl_read_of_no_volta (p := {}) hvolta rfl (Nat.le_refl 0)
    (by simp : ∀ q ∈ ([] : List Nat), q ≤ 0) hmeasures rfl
  rw [RepeatPlan.ofMarks, RepeatPlan.closeSection_of_brackets_nil hbrackets]
  exact hrepeats

/-- Without brackets the measures of an analysed score are played up to each repeat end, then
from the start of its section as many times as it says, and at last behind the last one. -/
theorem measureSequence_eq_unrolledFrom [OrderedTime τ] {settings : Settings} {tree : Node}
    {analysis : Analysis τ} (h : analyse settings tree = .ok analysis) {score : Score τ}
    (hs : score ∈ analysis.document.scores)
    (hvolta : ∀ mark ∈ writtenMarks score, mark.isVolta = false)
    (hsep : (SoundTable.ofScore score).SeparatesMeasures) :
    ((repeatEnds (writtenMarks score)).map RepeatEnd.measure).Pairwise (· < ·) ∧
      (SoundTable.ofScore score).measureSequence =
        unrolledFrom (repeatStarts (writtenMarks score)) (SoundTable.ofScore score).measureCount 0
          (repeatEnds (writtenMarks score)) := by
  have hgrown := isGrown_of_analyse h hs
  have hread := hgrown.filter_isBarline
  have hmeasures := hgrown.pairwise_measure
  have hends : repeatEnds (repeatMarks score) = repeatEnds (writtenMarks score) := by
    rw [← repeatEnds_filter, hread, repeatEnds_filter]
  have hstarts : repeatStarts (repeatMarks score) = repeatStarts (writtenMarks score) := by
    rw [← repeatStarts_filter, hread, repeatStarts_filter]
  have hsorted := hmeasures.sublist ((repeatEnds_sublist (writtenMarks score)).cons_cons 0)
  have hlast : ∀ e ∈ repeatEnds (writtenMarks score),
      e.measure ≤ (SoundTable.ofScore score).measureCount := by
    intro e he
    obtain ⟨mark, hmark, hmeasure⟩ :=
      List.mem_map.mp ((repeatEnds_sublist _).subset (List.mem_map_of_mem he))
    obtain ⟨object, hobject, hof⟩ := List.mem_filterMap.mp (List.mem_filter.mp hmark).1
    rw [← hmeasure, RepeatMark.measure_of_ofObject? hof]
    exact le_lastMeasure hobject
  have hno : ∀ mark ∈ repeatMarks score, mark.isVolta = false := fun mark hmark =>
    hvolta mark ((repeatMarks_perm score).mem_iff.mp hmark)
  have hrepeats := ofMarks_of_no_volta hno (hread ▸ hmeasures)
  rw [hends, hstarts] at hrepeats
  generalize hp : RepeatPlan.ofMarks (repeatMarks score) = p at hrepeats
  have hpos : p.IsPositive := by
    intro r hr
    obtain ⟨hskip, htarget, -⟩ := exists_of_mem_sectionRepeats (hrepeats ▸ hr)
    exact ⟨htarget, by simp [hskip]⟩
  refine ⟨(List.pairwise_cons.mp hsorted).2, ?_⟩
  have hplay := playFrom_sectionRepeats (repeatStarts (writtenMarks score))
    (by simp : ∀ d ∈ ([] : List JumpEntry), d.IsQuiet) p.notices hsorted (Nat.zero_le _) hlast
  rw [List.nil_append, ← hrepeats] at hplay
  rw [SoundTable.measureSequence_eq hp hpos hsep, RepeatPlan.playMeasures,
    RepeatPlan.jumpTable, hplay, List.filter_append, List.filter_eq_self.mpr, List.filter_singleton]
  · simp
  · simpa using le_of_mem_unrolledFrom hlast

end Score

/-- Four measures; the second one is repeated once and the third one twice. -/
def twoRepeats : Node :=
  let here : Position := ⟨1, 1⟩
  let word (text : String) : Node := .atom .label text here
  let note : Node := .element .note [word "c4", word "w"] here
  let barline (parts : List Node) : Node := .element .barline parts here
  .element .score [.element .instrument [.element .music
    [note, barline [word "startRepetition"], note, barline [word "doubleRepetition"], note,
      barline [word "endRepetition", .element .times [.atom .number "2" here] here], note]
    here] here] here

theorem measureSequence_twoRepeats :
    ∃ analysis : Analysis Rat, analyse {} twoRepeats = .ok analysis ∧
      analysis.document.scores.map (fun score => (SoundTable.ofScore score).measureSequence) =
        [[1, 2, 2, 3, 3, 3, 4]] := by
  refine ⟨_, rfl, ?_⟩
  have h : (analyse {} twoRepeats : Except CompileError (Analysis Rat)) = .ok _ := rfl
  refine (congrArg (fun sequence => [sequence]) (measureSequence_eq_unrolledFrom h
    (List.mem_singleton.mpr rfl) ?_ ?_).2).trans ?_
  · decide +kernel
  · decide +kernel
  · decide +kernel

end ScorePlayback
