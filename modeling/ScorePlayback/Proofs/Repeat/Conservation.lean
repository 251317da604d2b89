import ScorePlayback.Proofs.Repeat.Origins
import ScorePlayback.Proofs.Repeat.Unrolling

/-! # No repeat end is lost

A repeat end becomes an entry at once, or a bracket keeps it until the section is closed. So the
repeats of a plan and the repeat ends that its brackets keep are together the repeat ends that have
been read. Each bracket is closed with its section once, and then it has a repeat, or it is noted,
or it is left out because only other brackets of its section have one. -/

namespace ScorePlayback

/-! ## Groups of brackets -/

namespace Bracket

/-- The mark that opens the bracket. -/
def mark (b : Bracket) : RepeatMark := .volta b.ending b.start b.span

/-- What is noted when a section with these brackets is closed. -/
def noted (group : List Bracket) : List VoltaNotice :=
  if group.all fun b => b.repeatEnd.isNone then group.map notice else []

/-- The brackets that get no repeat although other brackets of their section do. -/
def leftOut (group : List Bracket) : List Bracket :=
  if group.all fun b => b.repeatEnd.isNone then [] else group.filter fun b => b.repeatEnd.isNone

/-- Each bracket of a group has a repeat, is noted, or is left out. -/
theorem length_eq_claimed_add (group : List Bracket) :
    group.countP (fun b => b.repeatEnd.isSome) + (noted group).length + (leftOut group).length =
      group.length := by
  unfold noted leftOut
  split
  · next hnone =>
    have hclaimed : group.countP (fun b => b.repeatEnd.isSome) = 0 := by
      rw [List.countP_eq_zero]
      simpa using hnone
    simp [hclaimed]
  · rw [List.length_nil, Nat.add_zero, ← List.countP_eq_length_filter,
      List.length_eq_countP_add_countP fun b => b.repeatEnd.isSome]
    congr 1
    exact List.countP_congr fun b _ => by simp

theorem length_flatten_eq_claimed_add (groups : List (List Bracket)) :
    groups.flatten.countP (fun b => b.repeatEnd.isSome) + (groups.flatMap noted).length +
      (groups.flatMap leftOut).length = groups.flatten.length := by
  induction groups with
  | nil => rfl
  | cons group groups ih =>
      have hgroup := length_eq_claimed_add group
      simp only [List.flatten_cons, List.flatMap_cons, List.countP_append, List.length_append]
      omega

end Bracket

namespace RepeatPlan

/-- The groups of brackets with which sections are closed while a mark is read. -/
def closedBy (p : RepeatPlan) : RepeatMark → List (List Bracket)
  | .volta _ _ _ => []
  | .music measure => if p.isBehindBrackets measure then [p.brackets] else []
  | .barline shape measure times =>
    let reached := p.reach measure
    let ended := if shape.endsRepeat then reached.endRepeat ⟨measure, times⟩ else reached
    (if p.isBehindBrackets measure then [p.brackets] else [])
      ++ (if shape.endsRepeat && (Bracket.claim? ⟨measure, times⟩ reached.brackets).isNone
          then [reached.brackets] else [])
      ++ (if shape.startsRepeat then [ended.brackets] else [])

/-- The groups of brackets with which sections are closed until the end. -/
def groups : RepeatPlan → List RepeatMark → List (List Bracket)
  | p, [] => [p.brackets]
  | p, mark :: rest => p.closedBy mark ++ groups (p.read mark) rest

/-! ## Accounts -/

/-- The repeat ends of a plan: those of its repeats, and those that its brackets keep. -/
def heldEnds (p : RepeatPlan) : List RepeatEnd :=
  p.repeats.map (fun r => ⟨r.back.measure, r.back.times⟩) ++ p.brackets.filterMap Bracket.repeatEnd

/-- From one plan to the next brackets are opened, repeat ends are read and groups of brackets are
closed. All that is read is kept. -/
structure Accounts (p : RepeatPlan) (opened : List RepeatMark) (ended : List RepeatEnd)
    (closed : List (List Bracket)) (q : RepeatPlan) : Prop where
  brackets : (closed.flatten ++ q.brackets).map Bracket.mark = p.brackets.map Bracket.mark ++ opened
  ends : q.heldEnds.Perm (p.heldEnds ++ ended)
  notices : q.notices = p.notices ++ closed.flatMap Bracket.noted
  skips : q.repeats.countP (fun r => r.skip.isSome) =
    p.repeats.countP (fun r => r.skip.isSome) +
      closed.flatten.countP (fun b => b.repeatEnd.isSome)

namespace Accounts

variable {p q r : RepeatPlan} {opened opened' : List RepeatMark} {ended ended' : List RepeatEnd}
  {closed closed' : List (List Bracket)}

theorem refl (p : RepeatPlan) : p.Accounts [] [] [] p := by
  constructor <;> simp

theorem trans (h : p.Accounts opened ended closed q) (h' : q.Accounts opened' ended' closed' r) :
    p.Accounts (opened ++ opened') (ended ++ ended') (closed ++ closed') r where
  brackets := by
    have hq := h'.brackets
    have hp := h.brackets
    simp only [List.map_append, List.flatten_append, List.append_assoc] at hp hq ⊢
    rw [hq, ← List.append_assoc, hp, List.append_assoc]
  ends := by
    rw [← List.append_assoc]
    exact h'.ends.trans (h.ends.append_right ended')
  notices := by rw [h'.notices, h.notices, List.flatMap_append, List.append_assoc]
  skips := by rw [h'.skips, h.skips, List.flatten_append, List.countP_append, Nat.add_assoc]

/-- A closed section turns the repeat ends of its brackets into repeats. -/
theorem closeSection (p : RepeatPlan) (start : Nat) :
    p.Accounts [] [] [p.brackets] (p.closeSection start) := by
  by_cases hp : p.IsUnclaimed
  · have hnone : ∀ b ∈ p.brackets, b.repeatEnd = none := by simpa [IsUnclaimed] using hp
    have hkept : p.brackets.filterMap Bracket.repeatEnd = [] := List.filterMap_eq_nil_iff.mpr hnone
    have hclaimed : p.brackets.countP (fun b => b.repeatEnd.isSome) = 0 := by
      rw [List.countP_eq_zero]
      exact fun b hb => by simp [hnone b hb]
    rw [closeSection_of_isUnclaimed hp]
    refine ⟨by simp, by simp [heldEnds, hkept], ?_, by simp [hclaimed]⟩
    rw [List.flatMap_singleton, Bracket.noted, if_pos (show _ = true from hp)]
  · have hends (start last : Nat) :
        (p.brackets.filterMap (Bracket.repeat? start last)).map
            (fun r => (⟨r.back.measure, r.back.times⟩ : RepeatEnd)) =
          p.brackets.filterMap Bracket.repeatEnd := by
      rw [List.map_filterMap]
      refine List.filterMap_congr fun b _ => ?_
      cases he : b.repeatEnd <;> simp [Bracket.repeat?, he]
    have hskips (start last : Nat) :
        (p.brackets.filterMap (Bracket.repeat? start last)).countP (fun r => r.skip.isSome) =
          p.brackets.countP (fun b => b.repeatEnd.isSome) := by
      rw [List.countP_filterMap]
      refine List.countP_congr fun b _ => ?_
      cases he : b.repeatEnd <;> simp [Bracket.repeat?, he]
    rw [closeSection_of_not_isUnclaimed hp]
    refine ⟨by simp, ?_, ?_, ?_⟩
    · simp [heldEnds, hends]
    · rw [List.flatMap_singleton, Bracket.noted, if_neg (show ¬ _ = true from hp), List.append_nil]
    · rw [List.countP_append, hskips, List.flatten_singleton]

theorem reach (p : RepeatPlan) (measure : Nat) :
    p.Accounts [] [] (if p.isBehindBrackets measure then [p.brackets] else []) (p.reach measure) := by
  unfold RepeatPlan.reach
  split
  · exact closeSection p measure
  · exact refl p

/-- A repeat end is kept by the bracket that claims it, or it is a repeat at once. -/
theorem endRepeat (p : RepeatPlan) (e : RepeatEnd) :
    p.Accounts [] [e] (if (Bracket.claim? e p.brackets).isNone then [p.brackets] else [])
      (p.endRepeat e) := by
  unfold RepeatPlan.endRepeat
  cases hclaim : Bracket.claim? e p.brackets with
  | some brackets =>
      obtain ⟨front, b, back, hs, hnone, -, rfl⟩ := Bracket.exists_of_claim? hclaim
      refine ⟨by simp [hs, Bracket.mark], ?_, by simp, by simp⟩
      simp only [heldEnds, hs, List.filterMap_append, List.filterMap_cons, hnone, List.append_assoc]
      refine List.Perm.append_left _ (List.Perm.append_left _ ?_)
      exact (List.perm_append_singleton e _).symm
  | none =>
      have hclosed := closeSection p (e.measure + 1)
      refine ⟨hclosed.brackets, ?_, hclosed.notices, ?_⟩
      · have hends := hclosed.ends
        simp only [heldEnds, brackets_closeSection, List.filterMap_nil, List.append_nil,
          List.map_append, List.map_cons, List.map_nil] at hends ⊢
        exact hends.append_right [e]
      · rw [List.countP_append, hclosed.skips]
        simp

theorem read (p : RepeatPlan) (mark : RepeatMark) :
    p.Accounts ([mark].filter RepeatMark.isVolta) mark.repeatEnd?.toList (p.closedBy mark)
      (p.read mark) := by
  cases mark with
  | volta ending measure span =>
      have hopened : [RepeatMark.volta ending measure span].filter RepeatMark.isVolta =
          [.volta ending measure span] := rfl
      constructor <;>
        simp [RepeatPlan.read, closedBy, hopened, RepeatMark.repeatEnd?, Bracket.mark, heldEnds]
  | music measure => exact reach p measure
  | barline shape measure times =>
      have hreach := reach p measure
      have hend := hreach.trans (endRepeat (p.reach measure) ⟨measure, times⟩)
      simp only [RepeatPlan.read, closedBy, RepeatMark.repeatEnd?]
      cases shape.endsRepeat <;> cases shape.startsRepeat
      · simpa [RepeatMark.isVolta] using hreach
      · simpa [RepeatMark.isVolta] using hreach.trans (closeSection _ (measure + 1))
      · simpa [RepeatMark.isVolta] using hend
      · simpa [RepeatMark.isVolta] using hend.trans (closeSection _ (measure + 1))

/-- All that a list of marks says is accounted for when its last section is closed. -/
theorem foldl (p : RepeatPlan) (marks : List RepeatMark) (start : Nat) :
    p.Accounts (marks.filter RepeatMark.isVolta) (repeatEnds marks) (p.groups marks)
      ((marks.foldl RepeatPlan.read p).closeSection start) := by
  induction marks generalizing p with
  | nil => exact closeSection p start
  | cons mark marks ih =>
      have h := (read p mark).trans (ih (p.read mark))
      have hvoltas : (mark :: marks).filter RepeatMark.isVolta =
          [mark].filter RepeatMark.isVolta ++ marks.filter RepeatMark.isVolta := by
        rw [← List.filter_append, List.singleton_append]
      have hends : repeatEnds (mark :: marks) = mark.repeatEnd?.toList ++ repeatEnds marks := by
        cases he : mark.repeatEnd? <;> simp [repeatEnds, he]
      rw [List.foldl_cons, groups, hvoltas, hends]
      exact h

theorem ofMarks (marks : List RepeatMark) :
    ({} : RepeatPlan).Accounts (marks.filter RepeatMark.isVolta) (repeatEnds marks)
      (groups {} marks) (RepeatPlan.ofMarks marks) :=
  foldl {} marks _

end Accounts
end RepeatPlan

/-! ## Scores -/

/-- The measure and the number of the jumps back of an entry. -/
def JumpEntry.repeatEnd? (e : JumpEntry) : Option RepeatEnd :=
  e.slots.head?.map fun slot => ⟨slot.triggerMeasure, slot.required⟩

namespace StaffObject

variable {τ : Type}

def repeatEnd? (object : StaffObject τ) : Option RepeatEnd :=
  match object.symbol with
  | .barline .endRepeat times => some ⟨object.measure, times⟩
  | .barline .doubleRepeat times => some ⟨object.measure, times⟩
  | _ => none

def isVolta (object : StaffObject τ) : Bool :=
  match object.symbol with
  | .volta _ _ => true
  | _ => false

theorem repeatEnd?_eq (object : StaffObject τ) :
    object.repeatEnd? = (RepeatMark.ofObject? object).bind RepeatMark.repeatEnd? := by
  unfold repeatEnd? RepeatMark.ofObject?
  split
  · next h => simp [h, RepeatMark.repeatEnd?, Barline.endsRepeat]
  · next h => simp [h, RepeatMark.repeatEnd?, Barline.endsRepeat]
  · split
    all_goals simp_all [RepeatMark.repeatEnd?, Barline.endsRepeat]

theorem isVolta_eq (object : StaffObject τ) :
    object.isVolta = (RepeatMark.ofObject? object).any RepeatMark.isVolta := by
  unfold isVolta RepeatMark.ofObject?
  cases object.symbol <;> rfl

end StaffObject

namespace SoundTable

variable {τ : Type} [TimeValue τ]

theorem repeatEnds_repeatMarks_perm (score : Score τ) :
    (repeatEnds (repeatMarks score)).Perm (score.firstTimeline.filterMap StaffObject.repeatEnd?) := by
  have h := (repeatMarks_perm score).filterMap RepeatMark.repeatEnd?
  rw [writtenMarks, List.filterMap_filterMap] at h
  simpa only [repeatEnds, funext StaffObject.repeatEnd?_eq] using h

theorem countP_isVolta_repeatMarks (score : Score τ) :
    (repeatMarks score).countP RepeatMark.isVolta =
      score.firstTimeline.countP StaffObject.isVolta := by
  rw [(repeatMarks_perm score).countP_eq, writtenMarks, List.countP_filterMap]
  refine List.countP_congr fun object _ => ?_
  rw [StaffObject.isVolta_eq]
  cases RepeatMark.ofObject? object <;> simp

/-- The entries of a score jump back from its repeat ends, each from one and as often as it says.
Each bracket has an entry, with the two slots of an ending, or it is noted, or it is left out of a
section that has entries for other brackets. -/
theorem backs_perm_repeatEnds (score : Score τ) :
    ((ofScore score).jumps.entries.map JumpEntry.repeatEnd?).Perm
        ((score.firstTimeline.filterMap StaffObject.repeatEnd?).map some) ∧
      (∀ e ∈ (ofScore score).jumps.entries, e.slots.length = 1 ∨ e.slots.length = 2) ∧
      (RepeatPlan.groups {} (repeatMarks score)).flatten.map Bracket.mark =
        (repeatMarks score).filter RepeatMark.isVolta ∧
      (ofScore score).jumps.notices =
        (RepeatPlan.groups {} (repeatMarks score)).flatMap Bracket.noted ∧
      (ofScore score).jumps.entries.countP (fun e => e.slots.length = 2) +
          (ofScore score).jumps.notices.length +
          ((RepeatPlan.groups {} (repeatMarks score)).flatMap Bracket.leftOut).length =
        score.firstTimeline.countP StaffObject.isVolta := by
  have haccounts := RepeatPlan.Accounts.ofMarks (repeatMarks score)
  have hclosed : (RepeatPlan.ofMarks (repeatMarks score)).brackets = [] :=
    RepeatPlan.brackets_closeSection _ _
  have hbrackets := haccounts.brackets
  have hends := haccounts.ends
  have hskips := haccounts.skips
  have hnotices := haccounts.notices
  simp only [hclosed, RepeatPlan.heldEnds, List.map_nil, List.filterMap_nil, List.nil_append,
    List.append_nil, List.countP_nil, Nat.zero_add] at hbrackets hends hskips hnotices
  refine ⟨?_, ?_, hbrackets, hnotices, ?_⟩
  · have hbacks : (ofScore score).jumps.entries.map JumpEntry.repeatEnd? =
        ((RepeatPlan.ofMarks (repeatMarks score)).repeats.map
          fun r => (⟨r.back.measure, r.back.times⟩ : RepeatEnd)).map some := by
      rw [List.map_map]
      exact List.map_map ..
    rw [hbacks]
    exact (hends.trans (repeatEnds_repeatMarks_perm score)).map some
  · intro e he
    obtain ⟨r, -, rfl⟩ := List.mem_map.mp he
    cases hr : r.skip <;> simp [SectionRepeat.entry, hr]
  · have hslots : (ofScore score).jumps.entries.countP (fun e => e.slots.length = 2) =
        (RepeatPlan.ofMarks (repeatMarks score)).repeats.countP fun r => r.skip.isSome := by
      refine (List.countP_map ..).trans (List.countP_congr fun r _ => ?_)
      cases hr : r.skip <;> simp [SectionRepeat.entry, hr]
    have hnoted : (ofScore score).jumps.notices.length =
        ((RepeatPlan.groups {} (repeatMarks score)).flatMap Bracket.noted).length :=
      congrArg List.length hnotices
    rw [hslots, hskips, hnoted, Bracket.length_flatten_eq_claimed_add, ← countP_isVolta_repeatMarks,
      List.countP_eq_length_filter, ← hbrackets, List.length_map]

end SoundTable

/-- The second bracket is left out: its section has a repeat end, but in the first bracket. The
third one is in a section of its own and noted. -/
example :
    let groups := RepeatPlan.groups {} [.volta 1 1 1, .music 1, .barline .endRepeat 1 1,
      .volta 2 2 1, .music 2, .barline .startRepeat 2 1, .volta 1 3 1, .music 3]
    groups = [[⟨1, 1, 1, some ⟨1, 1⟩⟩, ⟨2, 2, 1, none⟩], [⟨1, 3, 1, none⟩]] ∧
      groups.flatMap Bracket.leftOut = [⟨2, 2, 1, none⟩] ∧
      groups.flatMap Bracket.noted = [⟨1, 3⟩] := by
  decide

end ScorePlayback
