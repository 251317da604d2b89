import Mathlib.Data.List.Forall2
import ScorePlayback.Proofs.Repeat.Origins

/-! # Brackets that belong to no repeat

A section whose brackets get no repeat end yields no repeat, and its brackets are only noted. The
same repeats are read without these brackets, but for one thing: music behind them starts a new
section, so a later repeat end may go back to there, and not to the start of the section that the
brackets interrupt. -/

namespace ScorePlayback

def RepeatMark.notice? : RepeatMark → Option VoltaNotice
  | .volta ending measure _ => some ⟨ending, measure⟩
  | _ => none

namespace RepeatPlan

/-! ## Which brackets are only noted -/

/-- The marks close the section, and its brackets are noted then. -/
def isOrphaned (p : RepeatPlan) : List RepeatMark → Bool
  | [] => decide p.IsUnclaimed
  | mark :: rest =>
    if (p.read mark).brackets = [] then (p.read mark).notices ≠ p.notices
    else (p.read mark).isOrphaned rest

/-- The marks of brackets that are only noted. -/
def orphans : RepeatPlan → List RepeatMark → List RepeatMark
  | _, [] => []
  | p, mark :: rest =>
    if mark.isVolta && (p.read mark).isOrphaned rest then mark :: orphans (p.read mark) rest
    else orphans (p.read mark) rest

/-- All other marks. -/
def withoutOrphans : RepeatPlan → List RepeatMark → List RepeatMark
  | _, [] => []
  | p, mark :: rest =>
    if mark.isVolta && (p.read mark).isOrphaned rest then withoutOrphans (p.read mark) rest
    else mark :: withoutOrphans (p.read mark) rest

/-- The measures of marks that are read behind brackets without a repeat end. -/
def orphanExits : RepeatPlan → List RepeatMark → List Nat
  | _, [] => []
  | p, mark :: rest =>
    if mark.isVolta = false ∧ p.isBehindBrackets mark.measure = true ∧ p.IsUnclaimed then
      mark.measure :: orphanExits (p.read mark) rest
    else orphanExits (p.read mark) rest

/-! ## One mark -/

/-- A bracket that claims a repeat end keeps its place and its notice. -/
theorem not_isUnclaimed_of_claim? {p : RepeatPlan} {e : RepeatEnd} {brackets : List Bracket}
    (h : Bracket.claim? e p.brackets = some brackets) :
    ¬ IsUnclaimed { p with brackets } ∧
      brackets.map Bracket.notice = p.brackets.map Bracket.notice := by
  obtain ⟨front, b, back, hs, -, -, rfl⟩ := Bracket.exists_of_claim? h
  simp [IsUnclaimed, hs, Bracket.notice]

/-! ### What is noted -/

/-- From one plan to the next the brackets stay, or they are closed and possibly noted. -/
def NotesFrom (n : RepeatPlan) (p : RepeatPlan) : Prop :=
  (p.notices = n.notices ∧ p.brackets.map Bracket.notice = n.brackets.map Bracket.notice) ∨
    (p.brackets = [] ∧
      (p.notices = n.notices ∨ p.notices = n.notices ++ n.brackets.map Bracket.notice))

namespace NotesFrom

variable {n p : RepeatPlan}

theorem closeSection (h : n.NotesFrom p) (start : Nat) : n.NotesFrom (p.closeSection start) := by
  refine .inr ⟨brackets_closeSection p start, ?_⟩
  by_cases hp : p.IsUnclaimed
  · rw [closeSection_of_isUnclaimed hp]
    rcases h with ⟨hnotices, hbrackets⟩ | ⟨hbrackets, hnotices⟩
    · exact .inr (by rw [hnotices, hbrackets])
    · simpa [hbrackets] using hnotices
  · rw [closeSection_of_not_isUnclaimed hp]
    rcases h with ⟨hnotices, -⟩ | ⟨-, hnotices⟩
    · exact .inl hnotices
    · exact hnotices

/-- While brackets are open, nothing has been noted. -/
theorem of_open (h : n.NotesFrom p) (hopen : p.brackets ≠ []) :
    n.brackets ≠ [] ∧ p.notices = n.notices := by
  obtain ⟨hnotices, hbrackets⟩ := h.resolve_right fun hclosed => hopen hclosed.1
  refine ⟨fun hnil => hopen ?_, hnotices⟩
  rw [hnil] at hbrackets
  exact List.map_eq_nil_iff.mp hbrackets

theorem endRepeat (h : n.NotesFrom p) (e : RepeatEnd) : n.NotesFrom (p.endRepeat e) := by
  unfold RepeatPlan.endRepeat
  split
  · next brackets hclaim =>
    have hmap := (not_isUnclaimed_of_claim? hclaim).2
    rcases h with ⟨hnotices, hbrackets⟩ | ⟨hbrackets, -⟩
    · exact .inl ⟨hnotices, hmap.trans hbrackets⟩
    · simp [hbrackets, Bracket.claim?] at hclaim
  · exact h.closeSection _

theorem read (p : RepeatPlan) {mark : RepeatMark} (hmark : mark.isVolta = false) :
    p.NotesFrom (p.read mark) := by
  refine read_induction (R := fun a _ => p.NotesFrom a) (q := p) hmark ?_
    (fun _ _ e h => h.endRepeat e) (fun _ _ start h => h.closeSection start)
  have hself : p.NotesFrom p := .inl ⟨rfl, rfl⟩
  rcases p.reach_cases mark.measure with hreach | hreach
  · rwa [hreach]
  · rw [hreach]
    exact hself.closeSection _

end NotesFrom

section Marks

variable {p : RepeatPlan} {mark : RepeatMark} {rest : List RepeatMark}

theorem isOrphaned_cons_of_closed (h : (p.read mark).brackets = []) :
    p.isOrphaned (mark :: rest) = decide ((p.read mark).notices ≠ p.notices) := by
  rw [isOrphaned, if_pos h]

theorem isOrphaned_cons_of_open (h : (p.read mark).brackets ≠ []) :
    p.isOrphaned (mark :: rest) = (p.read mark).isOrphaned rest := by
  rw [isOrphaned, if_neg h]

theorem read_of_isVolta (h : mark.isVolta = true) :
    ∃ b : Bracket, mark.notice? = some b.notice ∧
      ∀ p : RepeatPlan, p.read mark = { p with brackets := p.brackets ++ [b] } := by
  cases mark with
  | volta ending measure span => exact ⟨_, rfl, fun _ => rfl⟩
  | music measure => simp [RepeatMark.isVolta] at h
  | barline shape measure times => simp [RepeatMark.isVolta] at h

end Marks

/-- The marks of the brackets that are only noted are those that the notices tell of. -/
theorem notices_foldl (p : RepeatPlan) (marks : List RepeatMark) (start : Nat) :
    ((marks.foldl read p).closeSection start).notices =
      p.notices ++ (if p.isOrphaned marks then p.brackets.map Bracket.notice else []) ++
        (orphans p marks).filterMap RepeatMark.notice? := by
  induction marks generalizing p with
  | nil =>
      by_cases hp : p.IsUnclaimed
      · simp [isOrphaned, orphans, hp, closeSection_of_isUnclaimed]
      · simp [isOrphaned, orphans, hp, closeSection_of_not_isUnclaimed]
  | cons mark rest ih =>
      rw [List.foldl_cons, ih]
      cases hmark : mark.isVolta with
      | true =>
          obtain ⟨b, hnotice, hread⟩ := read_of_isVolta hmark
          have hopen : (p.read mark).brackets ≠ [] := by simp [hread]
          have hbrackets : (p.read mark).brackets = p.brackets ++ [b] := by rw [hread]
          have hnotices : (p.read mark).notices = p.notices := by rw [hread]
          rw [isOrphaned_cons_of_open hopen, hbrackets, hnotices]
          cases ho : (p.read mark).isOrphaned rest <;> simp [orphans, hmark, ho, hnotice]
      | false =>
          have horphans : orphans p (mark :: rest) = orphans (p.read mark) rest := by
            simp [orphans, hmark]
          rw [horphans]
          congr 1
          rcases NotesFrom.read p hmark with ⟨hnotices, hbrackets⟩ | ⟨hclosed, hnotices⟩
          · by_cases hopen : (p.read mark).brackets = []
            · rw [isOrphaned_cons_of_closed hopen]
              simp [hnotices, hopen]
            · rw [isOrphaned_cons_of_open hopen, hnotices, hbrackets]
          · rw [isOrphaned_cons_of_closed hclosed]
            rcases hnotices with hnotices | hnotices
            · simp [hnotices, hclosed]
            · cases hb : p.brackets <;> simp [hnotices, hclosed, hb]

/-! ## Brackets with a repeat end -/

/-- The brackets of a plan have not been noted, and one of them has a repeat end. -/
def HasClaimed (n p : RepeatPlan) : Prop :=
  p.notices = n.notices ∧ (p.brackets = [] ∨ ¬ p.IsUnclaimed)

namespace HasClaimed

variable {n p : RepeatPlan}

theorem closeSection (h : n.HasClaimed p) (start : Nat) : n.HasClaimed (p.closeSection start) := by
  obtain ⟨hnotices, hbrackets⟩ := h
  refine ⟨?_, .inl (brackets_closeSection p start)⟩
  by_cases hp : p.IsUnclaimed
  · rw [closeSection_of_isUnclaimed hp, hbrackets.resolve_right (not_not_intro hp)]
    simpa using hnotices
  · rw [closeSection_of_not_isUnclaimed hp]
    exact hnotices

theorem endRepeat (h : n.HasClaimed p) (e : RepeatEnd) : n.HasClaimed (p.endRepeat e) := by
  unfold RepeatPlan.endRepeat
  split
  · next brackets hclaim => exact ⟨h.1, .inr (not_isUnclaimed_of_claim? hclaim).1⟩
  · exact h.closeSection _

theorem reach (h : n.HasClaimed p) (measure : Nat) : n.HasClaimed (p.reach measure) := by
  rcases p.reach_cases measure with hreach | hreach
  · rwa [hreach]
  · rw [hreach]
    exact h.closeSection measure

theorem read (h : n.HasClaimed p) {mark : RepeatMark} (hmark : mark.isVolta = false) :
    n.HasClaimed (p.read mark) :=
  read_induction (R := fun a _ => n.HasClaimed a) (q := p) hmark (h.reach _)
    (fun _ _ e h => h.endRepeat e) (fun _ _ start h => h.closeSection start)

/-- Brackets are noted only if none of them has a repeat end when the section is closed. -/
theorem isOrphaned_cons {mark : RepeatMark} {rest : List RepeatMark}
    (h : p.HasClaimed (p.read mark))
    (hrest : (p.read mark).isOrphaned rest = true → (p.read mark).IsUnclaimed) :
    p.isOrphaned (mark :: rest) = false := by
  by_cases hclosed : (p.read mark).brackets = []
  · rw [isOrphaned_cons_of_closed hclosed]
    exact decide_eq_false (not_not_intro h.1)
  · rw [isOrphaned_cons_of_open hclosed, Bool.eq_false_iff]
    exact fun ho => h.2.resolve_left hclosed (hrest ho)

end HasClaimed

theorem isUnclaimed_of_isOrphaned {p : RepeatPlan} {marks : List RepeatMark}
    (h : p.isOrphaned marks = true) : p.IsUnclaimed := by
  induction marks generalizing p with
  | nil => exact of_decide_eq_true h
  | cons mark rest ih =>
      refine Decidable.by_contra fun hp => ?_
      cases hmark : mark.isVolta with
      | true =>
          obtain ⟨b, -, hread⟩ := read_of_isVolta hmark
          rw [isOrphaned_cons_of_open (by simp [hread])] at h
          have hall := ih h
          simp only [hread, IsUnclaimed, List.all_append, Bool.and_eq_true] at hall
          exact hp hall.1
      | false =>
          have hclaimed : p.HasClaimed p := ⟨rfl, .inr hp⟩
          exact Bool.eq_false_iff.mp ((hclaimed.read hmark).isOrphaned_cons ih) h

end RepeatPlan

/-! ## Reading with and without these brackets -/

/-- Two repeats agree, but the first one may go back to one of the given measures instead. -/
structure SectionRepeat.Agrees (exits : List Nat) (r s : SectionRepeat) : Prop where
  skip : s.skip = r.skip
  measure : s.back.measure = r.back.measure
  times : s.back.times = r.back.times
  target : s.back.target = r.back.target ∨ r.back.target ∈ exits

theorem SectionRepeat.Agrees.eq {r s : SectionRepeat} (h : r.Agrees [] s) : r = s := by
  obtain ⟨⟨measure, times, target⟩, skip⟩ := r
  obtain ⟨⟨measure', times', target'⟩, skip'⟩ := s
  obtain ⟨rfl, rfl, rfl, rfl | hexit⟩ := h
  · rfl
  · simp at hexit

namespace RepeatPlan

/-- The repeats of two plans agree, and so do their sections. -/
structure Agrees (exits : List Nat) (p q : RepeatPlan) : Prop where
  start : q.sectionStart = p.sectionStart ∨ p.sectionStart ∈ exits
  repeats : List.Forall₂ (SectionRepeat.Agrees exits) p.repeats q.repeats

theorem Agrees.forall₂_repeat? {exits : List Nat} {p q : RepeatPlan} (h : Agrees exits p q)
    (last : Nat) (brackets : List Bracket) :
    List.Forall₂ (SectionRepeat.Agrees exits)
      (brackets.filterMap (Bracket.repeat? p.sectionStart last))
      (brackets.filterMap (Bracket.repeat? q.sectionStart last)) := by
  induction brackets with
  | nil => exact .nil
  | cons b rest ih =>
      cases hb : b.repeatEnd with
      | none => simpa [Bracket.repeat?, hb] using ih
      | some e =>
          simp only [List.filterMap_cons, Bracket.repeat?, hb, Option.map_some]
          exact .cons ⟨rfl, rfl, rfl, h.start⟩ ih

/-! ### With the same brackets -/

/-- Two plans have the same brackets and note the same. -/
structure SharesBrackets (exits : List Nat) (p₀ q₀ p q : RepeatPlan) : Prop where
  agrees : Agrees exits p q
  brackets : q.brackets = p.brackets
  notices : ∃ noted, p.notices = p₀.notices ++ noted ∧ q.notices = q₀.notices ++ noted

namespace SharesBrackets

variable {exits : List Nat} {p₀ q₀ p q : RepeatPlan}

theorem closeSection (h : SharesBrackets exits p₀ q₀ p q) (start : Nat) :
    SharesBrackets exits p₀ q₀ (p.closeSection start) (q.closeSection start) := by
  obtain ⟨hagrees, hbrackets, noted, hp, hq⟩ := h
  by_cases hclaimed : p.IsUnclaimed
  · have hclaimed' : q.IsUnclaimed := by rwa [IsUnclaimed, hbrackets]
    rw [closeSection_of_isUnclaimed hclaimed, closeSection_of_isUnclaimed hclaimed']
    refine ⟨⟨.inl rfl, hagrees.repeats⟩, rfl, noted ++ p.brackets.map Bracket.notice, ?_, ?_⟩
    · simp [hp]
    · simp [hq, hbrackets]
  · have hclaimed' : ¬ q.IsUnclaimed := by rwa [IsUnclaimed, hbrackets]
    rw [closeSection_of_not_isUnclaimed hclaimed, closeSection_of_not_isUnclaimed hclaimed',
      hbrackets]
    refine ⟨⟨.inl rfl, ?_⟩, rfl, noted, hp, hq⟩
    exact List.rel_append hagrees.repeats (hagrees.forall₂_repeat? _ _)

theorem reach (h : SharesBrackets exits p₀ q₀ p q) (measure : Nat) :
    SharesBrackets exits p₀ q₀ (p.reach measure) (q.reach measure) := by
  have hbehind : q.isBehindBrackets measure = p.isBehindBrackets measure := by
    rw [isBehindBrackets, isBehindBrackets, h.brackets]
  rw [RepeatPlan.reach, RepeatPlan.reach, hbehind]
  split
  · exact h.closeSection measure
  · exact h

theorem endRepeat (h : SharesBrackets exits p₀ q₀ p q) (e : RepeatEnd) :
    SharesBrackets exits p₀ q₀ (p.endRepeat e) (q.endRepeat e) := by
  rw [RepeatPlan.endRepeat, RepeatPlan.endRepeat, h.brackets]
  split
  · exact ⟨⟨h.agrees.start, h.agrees.repeats⟩, rfl, h.notices⟩
  · have hclosed := h.closeSection (e.measure + 1)
    refine ⟨⟨hclosed.agrees.start, ?_⟩, hclosed.brackets, hclosed.notices⟩
    exact List.rel_append hclosed.agrees.repeats (.cons ⟨rfl, rfl, rfl, h.agrees.start⟩ .nil)

theorem read (h : Agrees exits p q) (hbrackets : q.brackets = p.brackets) {mark : RepeatMark}
    (hmark : mark.isVolta = false) : SharesBrackets exits p q (p.read mark) (q.read mark) := by
  have hself : SharesBrackets exits p q p q := ⟨h, hbrackets, [], by simp, by simp⟩
  exact read_induction hmark (hself.reach _) (fun _ _ e h => h.endRepeat e)
    (fun _ _ start h => h.closeSection start)

end SharesBrackets

/-! ### Without them -/

/-- The second plan has no brackets. Those of the first one have no repeat end, and it has not
changed since `p₀` while they are open. -/
structure LacksBrackets (exits : List Nat) (p₀ q₀ p q : RepeatPlan) : Prop where
  agrees : Agrees exits p q
  unclaimed : p.IsUnclaimed
  brackets : q.brackets = []
  notices : q.notices = q₀.notices
  origin : p.brackets = [] ∨ p = p₀

/-- A repeat end may turn up that one of the brackets claims. -/
def LacksOrClaims (exits : List Nat) (p₀ q₀ p q : RepeatPlan) : Prop :=
  LacksBrackets exits p₀ q₀ p q ∨ (p₀.brackets ≠ [] ∧ p₀.HasClaimed p)

namespace LacksBrackets

variable {exits : List Nat} {p₀ q₀ p q : RepeatPlan}

theorem closeSection (h : LacksBrackets exits p₀ q₀ p q) (start : Nat) :
    LacksBrackets exits p₀ q₀ (p.closeSection start) (q.closeSection start) := by
  rw [closeSection_of_isUnclaimed h.unclaimed, closeSection_of_brackets_nil h.brackets]
  exact ⟨⟨.inl rfl, h.agrees.repeats⟩, isUnclaimed_of_brackets_nil rfl, h.brackets, h.notices,
    .inl rfl⟩

theorem endRepeat (h : LacksBrackets exits p₀ q₀ p q) (e : RepeatEnd) :
    LacksOrClaims exits p₀ q₀ (p.endRepeat e) (q.endRepeat e) := by
  cases hclaim : Bracket.claim? e p.brackets with
  | some brackets =>
      have hopen : p.brackets ≠ [] := fun hnil => by simp [hnil, Bracket.claim?] at hclaim
      obtain rfl := h.origin.resolve_left hopen
      rw [RepeatPlan.endRepeat, hclaim]
      exact .inr ⟨hopen, rfl, .inr (not_isUnclaimed_of_claim? hclaim).1⟩
  | none =>
      have hnone : Bracket.claim? e q.brackets = none := by rw [h.brackets]; rfl
      have hclosed := h.closeSection (e.measure + 1)
      rw [RepeatPlan.endRepeat, RepeatPlan.endRepeat, hclaim, hnone]
      refine .inl ⟨⟨hclosed.agrees.start, ?_⟩, hclosed.unclaimed, hclosed.brackets, hclosed.notices,
        .inl (brackets_closeSection p _)⟩
      exact List.rel_append hclosed.agrees.repeats (.cons ⟨rfl, rfl, rfl, h.agrees.start⟩ .nil)

end LacksBrackets

/-- Where music behind the brackets starts a section, only the first plan has a new section. -/
theorem LacksOrClaims.read {exits : List Nat} {p q : RepeatPlan} (h : Agrees exits p q)
    (hclaimed : p.IsUnclaimed) (hbrackets : q.brackets = []) {mark : RepeatMark}
    (hmark : mark.isVolta = false)
    (hexit : p.isBehindBrackets mark.measure = true → mark.measure ∈ exits) :
    LacksOrClaims exits p q (p.read mark) (q.read mark) := by
  refine read_induction hmark (.inl ?_) ?_ ?_
  · -- the start of the section is all that may differ from here on
    rw [reach_of_brackets_nil hbrackets]
    by_cases hbehind : p.isBehindBrackets mark.measure = true
    · rw [RepeatPlan.reach, if_pos hbehind, closeSection_of_isUnclaimed hclaimed]
      exact ⟨⟨.inr (hexit hbehind), h.repeats⟩, isUnclaimed_of_brackets_nil rfl, hbrackets, rfl,
        .inl rfl⟩
    · rw [RepeatPlan.reach, if_neg hbehind]
      exact ⟨h, hclaimed, hbrackets, rfl, .inr rfl⟩
  · rintro p' q' e (hlacks | ⟨hopen, hclaims⟩)
    · exact hlacks.endRepeat e
    · exact .inr ⟨hopen, hclaims.endRepeat e⟩
  · rintro p' q' start (hlacks | ⟨hopen, hclaims⟩)
    · exact .inl (hlacks.closeSection start)
    · exact .inr ⟨hopen, hclaims.closeSection start⟩

/-! ### Many marks -/

/-- The second plan has the brackets of the first one, unless these are only noted. -/
structure Tracks (exits : List Nat) (marks : List RepeatMark) (p q : RepeatPlan) : Prop where
  agrees : Agrees exits p q
  notices : q.notices = []
  brackets : (q.brackets = [] ∧ (p.brackets = [] ∨ p.isOrphaned marks = true)) ∨
    (q.brackets = p.brackets ∧ p.isOrphaned marks = false)

namespace Tracks

variable {exits : List Nat} {mark : RepeatMark} {rest : List RepeatMark} {p q : RepeatPlan}

theorem volta (h : Tracks exits (mark :: rest) p q) (hmark : mark.isVolta = true) :
    Tracks exits rest (p.read mark)
      (if (p.read mark).isOrphaned rest then q else q.read mark) := by
  obtain ⟨b, -, hread⟩ := read_of_isVolta hmark
  have horphaned := h.brackets
  rw [isOrphaned_cons_of_open (by simp [hread])] at horphaned
  split
  · next ho =>
    rcases horphaned with ⟨hq, -⟩ | ⟨-, hno⟩
    · refine ⟨?_, h.notices, .inl ⟨hq, .inr ho⟩⟩
      rw [hread]
      exact ⟨h.agrees.start, h.agrees.repeats⟩
    · exact absurd ho (by simp [hno])
  · next ho =>
    have hsame : q.brackets = p.brackets := by
      rcases horphaned with ⟨hq, hp | ho'⟩ | ⟨hq, -⟩
      · rw [hq, hp]
      · exact absurd ho' ho
      · exact hq
    refine ⟨?_, ?_, .inr ⟨?_, by simpa using ho⟩⟩
    · rw [hread, hread]
      exact ⟨h.agrees.start, h.agrees.repeats⟩
    · rw [hread]
      exact h.notices
    · rw [hread, hread, hsame]

theorem read (h : Tracks exits (mark :: rest) p q) (hmark : mark.isVolta = false)
    (hexit : p.IsUnclaimed → p.isBehindBrackets mark.measure = true → mark.measure ∈ exits) :
    Tracks exits rest (p.read mark) (q.read mark) := by
  have hnotes := NotesFrom.read p hmark
  rcases h.brackets with ⟨hq, hp⟩ | ⟨hsame, hkept⟩
  · have hclaimed : p.IsUnclaimed := hp.elim isUnclaimed_of_brackets_nil isUnclaimed_of_isOrphaned
    rcases LacksOrClaims.read h.agrees hclaimed hq hmark (hexit hclaimed) with
      hlacks | ⟨hopen, hclaims⟩
    · refine ⟨hlacks.agrees, hlacks.notices.trans h.notices, .inl ⟨hlacks.brackets, ?_⟩⟩
      by_cases hclosed : (p.read mark).brackets = []
      · exact .inl hclosed
      · rw [← isOrphaned_cons_of_open hclosed]
        exact .inr (hp.resolve_left (hnotes.of_open hclosed).1)
    · -- a bracket that claims a repeat end is not only noted
      have hno : p.isOrphaned (mark :: rest) = false :=
        hclaims.isOrphaned_cons isUnclaimed_of_isOrphaned
      exact absurd (hp.resolve_left hopen) (Bool.eq_false_iff.mp hno)
  · obtain ⟨hagrees, hbrackets, noted, hnotices, hnotices'⟩ :=
      SharesBrackets.read h.agrees hsame hmark
    by_cases hclosed : (p.read mark).brackets = []
    · rw [isOrphaned_cons_of_closed hclosed, decide_eq_false_iff_not, not_not, hnotices,
        List.append_right_eq_self] at hkept
      refine ⟨hagrees, ?_, .inl ⟨hbrackets.trans hclosed, .inl hclosed⟩⟩
      rw [hnotices', hkept, h.notices, List.append_nil]
    · rw [isOrphaned_cons_of_open hclosed] at hkept
      have hnone := (hnotes.of_open hclosed).2
      rw [hnotices, List.append_right_eq_self] at hnone
      refine ⟨hagrees, ?_, .inr ⟨hbrackets, hkept⟩⟩
      rw [hnotices', hnone, h.notices, List.append_nil]

theorem closeSection (h : Tracks exits [] p q) (start start' : Nat) :
    List.Forall₂ (SectionRepeat.Agrees exits) (p.closeSection start).repeats
        (q.closeSection start').repeats ∧ (q.closeSection start').notices = [] := by
  rcases h.brackets with ⟨hq, hp⟩ | ⟨hsame, hkept⟩
  · have hclaimed : p.IsUnclaimed := hp.elim isUnclaimed_of_brackets_nil isUnclaimed_of_isOrphaned
    rw [closeSection_of_isUnclaimed hclaimed, closeSection_of_brackets_nil hq]
    exact ⟨h.agrees.repeats, h.notices⟩
  · have hclaimed : ¬ p.IsUnclaimed := of_decide_eq_false hkept
    have hclaimed' : ¬ q.IsUnclaimed := by rwa [IsUnclaimed, hsame]
    rw [closeSection_of_not_isUnclaimed hclaimed, closeSection_of_not_isUnclaimed hclaimed', hsame]
    exact ⟨List.rel_append h.agrees.repeats (h.agrees.forall₂_repeat? _ _), h.notices⟩

theorem foldl {marks : List RepeatMark} (h : Tracks exits marks p q)
    (hexits : ∀ measure ∈ orphanExits p marks, measure ∈ exits) :
    Tracks exits [] (marks.foldl RepeatPlan.read p)
      ((withoutOrphans p marks).foldl RepeatPlan.read q) := by
  induction marks generalizing p q with
  | nil => exact h
  | cons mark rest ih =>
      cases hmark : mark.isVolta with
      | true =>
          have hnext := ih (h.volta hmark) (by simpa [orphanExits, hmark] using hexits)
          cases ho : (p.read mark).isOrphaned rest <;>
            simpa [withoutOrphans, hmark, ho] using hnext
      | false =>
          have hnext := ih (h.read hmark fun hclaimed hbehind => ?_) fun measure hmeasure => ?_
          · simpa [withoutOrphans, hmark] using hnext
          · exact hexits _ (by simp [orphanExits, hmark, hclaimed, hbehind])
          · refine hexits measure ?_
            unfold orphanExits
            split
            · exact List.mem_cons_of_mem _ hmeasure
            · exact hmeasure

end Tracks

/-- Without the brackets that are only noted nothing is noted, and all repeats stay but for the
place that they go back to: one that goes back to music behind such brackets may go back elsewhere.
Where no music is behind them, nothing changes. -/
theorem jumpTable_withoutOrphans (marks : List RepeatMark) (index : List Nat) :
    ((ofMarks marks).jumpTable index).notices =
        (orphans {} marks).filterMap RepeatMark.notice? ∧
      ((ofMarks (withoutOrphans {} marks)).jumpTable index).notices = [] ∧
      List.Forall₂ (fun e d : JumpEntry => ∃ back rest target, e = ⟨back :: rest⟩ ∧
          d = ⟨{ back with targetMeasure := target, targetEvent := firstEvent index target } ::
            rest⟩ ∧
          (target = back.targetMeasure ∨ back.targetMeasure ∈ orphanExits {} marks))
        ((ofMarks marks).jumpTable index).entries
        ((ofMarks (withoutOrphans {} marks)).jumpTable index).entries ∧
      (orphanExits {} marks = [] →
        ((ofMarks (withoutOrphans {} marks)).jumpTable index).entries =
          ((ofMarks marks).jumpTable index).entries) := by
  have hstart : Tracks (orphanExits {} marks) marks {} {} :=
    ⟨⟨.inl rfl, .nil⟩, rfl, .inl ⟨rfl, .inl rfl⟩⟩
  obtain ⟨hrepeats, hnotices⟩ := (hstart.foldl fun _ h => h).closeSection
    (marks.foldl read {}).sectionStart ((withoutOrphans {} marks).foldl read {}).sectionStart
  refine ⟨?_, hnotices, ?_, fun hexits => ?_⟩
  · rw [jumpTable, ofMarks, notices_foldl]
    simp
  · rw [jumpTable, jumpTable, List.forall₂_map_left_iff, List.forall₂_map_right_iff]
    refine hrepeats.imp fun r s h => ?_
    obtain ⟨⟨measure, times, target⟩, skip⟩ := r
    obtain ⟨⟨measure', times', target'⟩, skip'⟩ := s
    obtain ⟨rfl, rfl, rfl, htarget⟩ := h
    exact ⟨_, _, target', rfl, rfl, htarget⟩
  · rw [hexits] at hrepeats
    have heq : (ofMarks marks).repeats = (ofMarks (withoutOrphans {} marks)).repeats :=
      List.forall₂_eq_eq_eq ▸ hrepeats.imp fun _ _ h => h.eq
    rw [jumpTable, jumpTable, heq]

/-- A bracket over the first measure closes no repeat, but the repeat of two measures goes back
to the second one. -/
example :
    let marks := [.volta 1 1 1, .music 1, .barline .simple 1 1, .music 2,
      .barline .endRepeat 2 1, .music 3]
    (ofMarks marks).notices = [⟨1, 1⟩] ∧ (ofMarks marks).repeats = [{ back := ⟨2, 1, 2⟩ }] ∧
      (ofMarks (withoutOrphans {} marks)).repeats = [{ back := ⟨2, 1, 1⟩ }] := by
  decide

end RepeatPlan
end ScorePlayback
