import ScorePlayback.Proofs.Analysis.WrittenMeasures
import ScorePlayback.Proofs.Repeat.Plan

/-! # Music between brackets and barlines

Music only tells the plan when a measure behind all brackets is reached. Where this is not the
case before the next bracket or barline, and where only plain barlines are left, the repeats do
not depend on the music. -/

namespace ScorePlayback

/-- Brackets and barlines with music in between that the next of them admits. -/
inductive Interleaved : List RepeatMark → List RepeatMark → Prop where
  | nil : Interleaved [] []
  | music {structural marks : List RepeatMark} {measure : Nat}
      (hadmits : ∀ mark ∈ structural.head?, mark.Admits measure) :
      Interleaved structural marks → Interleaved structural (.music measure :: marks)
  | mark {structural marks : List RepeatMark} {mark : RepeatMark} (hmark : mark.isMusic = false) :
      Interleaved structural marks → Interleaved (mark :: structural) (mark :: marks)

theorem interleaved_of_pairwise {marks : List RepeatMark}
    (h : marks.Pairwise fun a b => a.isMusic = true → b.Admits a.measure) :
    Interleaved (marks.filter fun mark => !mark.isMusic) marks := by
  induction marks with
  | nil => exact .nil
  | cons mark marks ih =>
      obtain ⟨hmark, hmarks⟩ := List.pairwise_cons.mp h
      cases hm : mark.isMusic with
      | false =>
          rw [List.filter_cons_of_pos (by simp [hm])]
          exact .mark hm (ih hmarks)
      | true =>
          rw [List.filter_cons_of_neg (by simp [hm])]
          cases mark with
          | music measure =>
              refine .music (fun next hnext => ?_) (ih hmarks)
              exact hmark next (List.mem_filter.mp (List.mem_of_mem_head? hnext)).1 rfl
          | volta ending start span => exact absurd hm Bool.false_ne_true
          | barline shape last times => exact absurd hm Bool.false_ne_true

namespace RepeatPlan

/-! ## Steady plans -/

/-- While the marks are read, no music that the next of them admits is behind all brackets. -/
def IsSteady : RepeatPlan → List RepeatMark → Prop
  | _, [] => True
  | p, mark :: rest => (∀ measure, mark.Admits measure → p.reach measure = p) ∧
      (p.read mark).IsSteady rest

theorem isSteady_append {p : RepeatPlan} {first second : List RepeatMark} :
    p.IsSteady (first ++ second) ↔ p.IsSteady first ∧ (first.foldl read p).IsSteady second := by
  induction first generalizing p with
  | nil => simp [IsSteady]
  | cons mark rest ih => simp only [List.cons_append, IsSteady, ih, List.foldl_cons, and_assoc]

/-- Music that is read before any bracket tells the plan nothing. -/
theorem foldl_read_of_isMusic {p : RepeatPlan} (hp : p.brackets = []) {marks : List RepeatMark}
    (h : ∀ mark ∈ marks, mark.isMusic = true) : marks.foldl read p = p := by
  induction marks with
  | nil => rfl
  | cons mark marks ih =>
      obtain ⟨hmark, hmarks⟩ := List.forall_mem_cons.mp h
      cases mark with
      | music measure =>
          rw [List.foldl_cons, read, reach_of_brackets_nil hp]
          exact ih hmarks
      | volta ending start span => exact absurd hmark Bool.false_ne_true
      | barline shape last times => exact absurd hmark Bool.false_ne_true

theorem isPlain_of_interleaved {structural marks : List RepeatMark}
    (h : Interleaved structural marks) (hplain : ∀ mark ∈ structural, mark.IsPlain) :
    ∀ mark ∈ marks, mark.IsPlain := by
  induction h with
  | nil => simp
  | music _ _ ih => exact List.forall_mem_cons.mpr ⟨trivial, ih hplain⟩
  | mark _ _ ih =>
      obtain ⟨hmark, hrest⟩ := List.forall_mem_cons.mp hplain
      exact List.forall_mem_cons.mpr ⟨hmark, ih hrest⟩

theorem closeSection_foldl_of_isSteady {front back marks : List RepeatMark} {p : RepeatPlan}
    (h : Interleaved (front ++ back) marks) (hsteady : p.IsSteady front)
    (hback : ∀ mark ∈ back, mark.IsPlain) (start : Nat) :
    (marks.foldl read p).closeSection start = (front.foldl read p).closeSection start := by
  generalize hall : front ++ back = structural at h
  induction h generalizing front p with
  | nil =>
      obtain ⟨rfl, -⟩ := List.append_eq_nil_iff.mp hall
      rfl
  | @music structural marks measure hadmits hrest ih =>
      subst hall
      cases front with
      | nil =>
          have hskip := @ih [] (p.read (.music measure)) trivial rfl
          exact hskip.trans (closeSection_reach p measure start)
      | cons mark front =>
          have hreach : p.read (.music measure) = p := hsteady.1 measure (hadmits mark rfl)
          rw [List.foldl_cons, hreach]
          exact ih hsteady rfl
  | @mark structural marks mark hmark hrest ih =>
      cases front with
      | nil =>
          rw [List.nil_append] at hall
          refine closeSection_foldl_of_isPlain ?_ p start
          exact isPlain_of_interleaved (.mark hmark hrest) (hall ▸ hback)
      | cons first front =>
          obtain ⟨rfl, htail⟩ := List.cons.inj hall
          exact ih hsteady.2 htail

/-- The last plain marks may be left out. -/
theorem closeSection_foldl_of_interleaved {front back final structural marks : List RepeatMark}
    {p : RepeatPlan} (h : Interleaved structural marks)
    (hall : structural ++ final = front ++ back) (hsteady : p.IsSteady front)
    (hback : ∀ mark ∈ back, mark.IsPlain) (hfinal : ∀ mark ∈ final, mark.IsPlain) (start : Nat) :
    (marks.foldl read p).closeSection start = (front.foldl read p).closeSection start := by
  rcases List.append_eq_append_iff.mp hall with ⟨missing, rfl, rfl⟩ | ⟨more, rfl, rfl⟩
  · have h' : Interleaved (structural ++ []) marks := by simpa using h
    rw [closeSection_foldl_of_isSteady h' (isSteady_append.mp hsteady).1 (by simp),
      List.foldl_append]
    exact (closeSection_foldl_of_isPlain (fun m hm => hfinal m (by simp [hm])) _ start).symm
  · exact closeSection_foldl_of_isSteady h hsteady (fun m hm => hback m (by simp [hm])) start

end RepeatPlan
end ScorePlayback
