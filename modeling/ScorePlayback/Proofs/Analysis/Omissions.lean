import ScorePlayback.Proofs.Analysis.FaultyNotes

/-! # Two runs of which one reports more

Two runs may go over different things and differ by what they report: all that one of them reports,
the other one reports as well, in the same order, with some reports of its own between. -/

namespace ScorePlayback

open Reporting (behind)

/-- A list consists of two lists that have been merged: each of them keeps its order. -/
inductive Merges {α : Type} : List α → List α → List α → Prop where
  | nil : Merges [] [] []
  | left (x : α) {xs ys zs : List α} (h : Merges xs ys zs) : Merges (x :: xs) ys (x :: zs)
  | right (y : α) {xs ys zs : List α} (h : Merges xs ys zs) : Merges xs (y :: ys) (y :: zs)

namespace Merges

variable {α β : Type} {xs ys zs xs' ys' zs' : List α}

theorem nil_left (ys : List α) : Merges [] ys ys := by
  induction ys with
  | nil => exact .nil
  | cons y ys ih => exact .right y ih

theorem nil_right (xs : List α) : Merges xs [] xs := by
  induction xs with
  | nil => exact .nil
  | cons x xs ih => exact .left x ih

theorem append (h : Merges xs ys zs) (h' : Merges xs' ys' zs') :
    Merges (xs ++ xs') (ys ++ ys') (zs ++ zs') := by
  induction h with
  | nil => exact h'
  | left x _ ih => exact .left x ih
  | right y _ ih => exact .right y ih

theorem map (f : α → β) (h : Merges xs ys zs) : Merges (xs.map f) (ys.map f) (zs.map f) := by
  induction h with
  | nil => exact .nil
  | left x _ ih => exact .left (f x) ih
  | right y _ ih => exact .right (f y) ih

theorem eq_of_nil_left (h : Merges [] ys zs) : ys = zs := by
  generalize hxs : [] = xs at h
  induction h with
  | nil => rfl
  | left x _ _ => cases hxs
  | right y _ ih => rw [ih hxs]

end Merges

/-! ## States -/

/-- Reports are put in front of reports. -/
class LawfulReporting {δ : outParam Type} (σ : Type) [Reporting δ σ] : Prop where
  behind_nil (s : σ) : behind [] s = s
  behind_behind (found more : List δ) (s : σ) :
    behind found (behind more s) = behind (found ++ more) s

/-- The first of two states has reported some more. Otherwise they are the same. -/
def OmitsAll {δ σ : Type} [Reporting δ σ] (own : List δ) (s s' : σ) : Prop :=
  ∃ found found' t, s = behind found t ∧ s' = behind found' t ∧ Merges own found' found

namespace OmitsAll

variable {δ σ ρ κ : Type} [Reporting δ σ] [Reporting δ ρ] {own more : List δ} {s s' : σ}

theorem refl [LawfulReporting σ] (s : σ) : OmitsAll [] s s :=
  ⟨[], [], s, (LawfulReporting.behind_nil s).symm, (LawfulReporting.behind_nil s).symm, .nil⟩

theorem map {f : σ → ρ} (hf : Unaware f) (h : OmitsAll own s s') : OmitsAll own (f s) (f s') := by
  obtain ⟨found, found', t, rfl, rfl, hmerges⟩ := h
  exact ⟨found, found', f t, hf found t, hf found' t, hmerges⟩

/-- Two steps that differ by what they report, at all states that are the same. -/
theorem step [LawfulReporting ρ] {f f' : σ → ρ} (hf : Unaware f) (hf' : Unaware f')
    (hff' : ∀ s, OmitsAll more (f s) (f' s)) (h : OmitsAll own s s') :
    OmitsAll (own ++ more) (f s) (f' s') := by
  obtain ⟨found, found', t, rfl, rfl, hmerges⟩ := h
  obtain ⟨next, next', u, hu, hu', hnext⟩ := hff' t
  refine ⟨found ++ next, found' ++ next', u, ?_, ?_, hmerges.append hnext⟩
  · rw [hf, hu, LawfulReporting.behind_behind]
  · rw [hf', hu', LawfulReporting.behind_behind]

/-- The second run goes over what is made of the elements of the first one. -/
theorem foldl [LawfulReporting σ] {f f' : σ → κ → σ} (hf : ∀ x, Unaware (f · x))
    (hf' : ∀ x, Unaware (f' · x)) {g : κ → κ} {ownOf : κ → List δ}
    (hff' : ∀ x s, OmitsAll (ownOf x) (f s x) (f' s (g x))) (xs : List κ)
    (h : OmitsAll own s s') :
    OmitsAll (own ++ xs.flatMap ownOf) (xs.foldl f s) ((xs.map g).foldl f' s') := by
  induction xs generalizing own s s' with
  | nil => simpa using h
  | cons x xs ih =>
      have hx := h.step (hf x) (hf' (g x)) (hff' x)
      rw [List.flatMap_cons, ← List.append_assoc]
      exact ih hx

theorem foldl_refl [LawfulReporting σ] {f f' : σ → κ → σ} (hf : ∀ x, Unaware (f · x))
    (hf' : ∀ x, Unaware (f' · x)) {g : κ → κ} {ownOf : κ → List δ}
    (hff' : ∀ x s, OmitsAll (ownOf x) (f s x) (f' s (g x))) (xs : List κ) (s : σ) :
    OmitsAll (xs.flatMap ownOf) (xs.foldl f s) ((xs.map g).foldl f' s) :=
  (refl s).foldl hf hf' hff' xs

end OmitsAll

/-! ## Links, music and documents -/

variable {τ : Type}

instance : LawfulReporting (Linking τ) where
  behind_nil _ := rfl
  behind_behind found more l := by simp [behind]

instance : LawfulReporting (Passage τ) where
  behind_nil _ := rfl
  behind_behind found more s :=
    congrArg (fun l => { s with linking := l }) (LawfulReporting.behind_behind found more s.linking)

instance {δ σ α : Type} [Reporting δ σ] [LawfulReporting σ] : LawfulReporting (σ × α) where
  behind_nil result := congrArg (·, result.2) (LawfulReporting.behind_nil result.1)
  behind_behind found more result :=
    congrArg (·, result.2) (LawfulReporting.behind_behind found more result.1)

instance : LawfulReporting (InstrumentState τ) where
  behind_nil _ := rfl
  behind_behind found more s :=
    congrArg (fun l => { s with linking := l }) (LawfulReporting.behind_behind found more s.linking)

instance : LawfulReporting (ScoreState τ) where
  behind_nil _ := rfl
  behind_behind found more s :=
    congrArg (fun l => { s with linking := l }) (LawfulReporting.behind_behind found more s.linking)

instance : LawfulReporting (Analysis τ) where
  behind_nil _ := rfl
  behind_behind found more a := by simp [behind]

instance : LawfulReporting NoteReading where
  behind_nil _ := rfl
  behind_behind found more r := by simp [behind]

/-- A passage that is told of more rejections reports more. -/
theorem Passage.omitsAll_reject {own rejections rejections' : List Rejection}
    (h : Merges own rejections' rejections) (s : Passage τ) :
    OmitsAll (own.map Rejection.diagnostic) (s.reject rejections) (s.reject rejections') := by
  let silent : Passage τ := { s with linking := { s.linking with diagnostics := [] } }
  have hreject (found : List Rejection) : s.reject found =
      behind (s.linking.diagnostics ++ found.map Rejection.diagnostic) silent := by
    simp [silent, behind, reject, Linking.reject, Linking.report]
  refine ⟨_, _, silent, hreject rejections, hreject rejections', ?_⟩
  exact (Merges.nil_left _).append (h.map Rejection.diagnostic)

end ScorePlayback
