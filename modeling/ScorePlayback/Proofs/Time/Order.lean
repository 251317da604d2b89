import Mathlib.Tactic.Linarith
import ScorePlayback.Time.Exact

/-! # The order of time

Three grades of laws. `OrderedTime` only says that times are ordered and that the later of two
times is not before the first one. `ComparableTime` adds that any two times compare, so that the
later one is found by comparing. `RoundedTime` adds what survives rounding: lengths of time are not
negative, and adding one leads to no earlier time. A result may be undefined, and such a value is
before all times. Exact numbers satisfy all of them, and so do doubles. -/

namespace ScorePlayback

variable {τ : Type} [TimeValue τ]

namespace TimeValue

/-- The order that sorts a timeline. -/
def NotLater (a b : τ) : Prop := compare a b ≠ .gt

instance (a b : τ) : Decidable (NotLater a b) := inferInstanceAs (Decidable (_ ≠ _))

/-- What is no number is not even as large as itself. -/
def IsUndefined (a : τ) : Prop := le a a = false

/-- An amount of time is found not to be negative, or it is no number. -/
def IsAmount (a : τ) : Prop := le zero a = true ∨ IsUndefined a

end TimeValue

open TimeValue (NotLater IsUndefined IsAmount)

class OrderedTime (τ : Type) [TimeValue τ] : Prop where
  refl (a : τ) : NotLater a a
  trans {a b c : τ} : NotLater a b → NotLater b c → NotLater a c
  le_later {a : τ} (b : τ) : NotLater TimeValue.zero a → NotLater a (TimeValue.later a b)

/-- Times that compare as equal need to be the same only where they are not negative. -/
class ComparableTime (τ : Type) [TimeValue τ] : Prop extends OrderedTime τ where
  swap (a b : τ) : TimeValue.compare b a = (TimeValue.compare a b).swap
  later_eq (a b : τ) : TimeValue.later a b = if TimeValue.compare a b = .lt then b else a
  eq_of_compare_eq {a b : τ} : NotLater TimeValue.zero a → TimeValue.compare a b = .eq → a = b

class RoundedTime (τ : Type) [TimeValue τ] : Prop extends ComparableTime τ where
  not_zero_le {a : τ} : IsUndefined a → ¬NotLater TimeValue.zero a
  undefined_add {a : τ} (b : τ) : IsUndefined a → IsUndefined (a + b)
  amount_ofNat (n : Nat) : IsAmount (TimeValue.ofNat n : τ)
  amount_add {a b : τ} : IsAmount a → IsAmount b → IsAmount (a + b)
  amount_mul {a b : τ} : IsAmount a → IsAmount b → IsAmount (a * b)
  amount_div {a : τ} (n : Nat) : IsAmount a → IsAmount (a / TimeValue.ofNat n)
  le_add {a b : τ} : NotLater TimeValue.zero a → IsAmount b →
    NotLater a (a + b) ∨ IsUndefined (a + b)

/-! ## Comparing -/

namespace ComparableTime

variable [ComparableTime τ] {a b c : τ}

theorem compare_eq_lt_iff : TimeValue.compare a b = .lt ↔ ¬NotLater b a := by
  rw [NotLater, swap a b, not_not, Ordering.swap_eq_gt]

theorem le_of_not_le (h : ¬NotLater b a) : NotLater a b := by
  rw [NotLater, compare_eq_lt_iff.mpr h]
  nofun

theorem compare_eq_eq_iff : TimeValue.compare a b = .eq ↔ NotLater a b ∧ NotLater b a := by
  rw [NotLater, NotLater, swap a b]
  cases TimeValue.compare a b <;> simp

theorem antisymm (ha : NotLater TimeValue.zero a) (hab : NotLater a b) (hba : NotLater b a) :
    a = b :=
  eq_of_compare_eq ha (compare_eq_eq_iff.mpr ⟨hab, hba⟩)

/-! ### The later of two times -/

theorem later_of_le (h : NotLater b a) : TimeValue.later a b = a := by
  rw [later_eq, if_neg (compare_eq_lt_iff.not_left.mpr h)]

theorem later_of_not_le (h : ¬NotLater b a) : TimeValue.later a b = b := by
  rw [later_eq, if_pos (compare_eq_lt_iff.mpr h)]

theorem later_self (a : τ) : TimeValue.later a a = a := later_of_le (OrderedTime.refl a)

theorem left_le_later (a b : τ) : NotLater a (TimeValue.later a b) := by
  by_cases h : NotLater b a
  · rw [later_of_le h]
    exact OrderedTime.refl a
  · rw [later_of_not_le h]
    exact le_of_not_le h

theorem right_le_later (a b : τ) : NotLater b (TimeValue.later a b) := by
  by_cases h : NotLater b a
  · rwa [later_of_le h]
  · rw [later_of_not_le h]
    exact OrderedTime.refl b

theorem later_le (ha : NotLater a c) (hb : NotLater b c) : NotLater (TimeValue.later a b) c := by
  by_cases h : NotLater b a
  · rwa [later_of_le h]
  · rwa [later_of_not_le h]

/-- Which of two times comes first does not matter for the latest one. -/
theorem later_right_comm (ha : NotLater TimeValue.zero a) (b c : τ) :
    TimeValue.later (TimeValue.later a b) c = TimeValue.later (TimeValue.later a c) b := by
  have hle (b c : τ) : NotLater (TimeValue.later (TimeValue.later a b) c)
      (TimeValue.later (TimeValue.later a c) b) :=
    later_le (later_le (OrderedTime.trans (left_le_later a c) (left_le_later _ b))
      (right_le_later _ b)) (OrderedTime.trans (right_le_later a c) (left_le_later _ b))
  refine antisymm (OrderedTime.trans ha ?_) (hle b c) (hle c b)
  exact OrderedTime.trans (left_le_later a b) (left_le_later _ c)

end ComparableTime

/-! ### The order of a timeline -/

section

open ComparableTime

variable [ComparableTime τ] {α : Type} {time : α → τ} {rank : α → Nat}

theorem notAfter_iff_le {a b : α} : TimeValue.notAfter time rank a b = true ↔
    NotLater (time a) (time b) ∧ (NotLater (time b) (time a) → rank a ≤ rank b) := by
  unfold TimeValue.notAfter
  rw [NotLater, NotLater, swap (time a) (time b)]
  cases TimeValue.compare (time a) (time b) <;> simp

theorem notAfter_trans (a b c : α) (hab : TimeValue.notAfter time rank a b = true)
    (hbc : TimeValue.notAfter time rank b c = true) : TimeValue.notAfter time rank a c = true := by
  rw [notAfter_iff_le] at *
  refine ⟨OrderedTime.trans hab.1 hbc.1, fun hca => ?_⟩
  exact (hab.2 (OrderedTime.trans hbc.1 hca)).trans (hbc.2 (OrderedTime.trans hca hab.1))

theorem notAfter_total (a b : α) :
    TimeValue.notAfter time rank a b = true ∨ TimeValue.notAfter time rank b a = true := by
  rw [notAfter_iff_le, notAfter_iff_le]
  by_cases hab : NotLater (time a) (time b)
  · by_cases hba : NotLater (time b) (time a)
    · exact (Nat.le_total (rank a) (rank b)).imp (⟨hab, fun _ => ·⟩) (⟨hba, fun _ => ·⟩)
    · exact .inl ⟨hab, (absurd · hba)⟩
  · exact .inr ⟨le_of_not_le hab, (absurd · hab)⟩

end

/-! ## Lengths of time -/

/-- A number of units, or what sums, products and divisions by whole numbers make of such
numbers, or an amount that has been found not to be negative. -/
inductive IsLength : τ → Prop where
  | units (n : Nat) : IsLength (TimeValue.ofNat n)
  | add {a b : τ} : IsLength a → IsLength b → IsLength (a + b)
  | mul {a b : τ} : IsLength a → IsLength b → IsLength (a * b)
  | div {a : τ} (n : Nat) : IsLength a → IsLength (a / TimeValue.ofNat n)
  | checked {a : τ} : TimeValue.le TimeValue.zero a = true → IsLength a

theorem IsLength.isAmount [RoundedTime τ] {a : τ} (h : IsLength a) : IsAmount a := by
  induction h with
  | units n => exact RoundedTime.amount_ofNat n
  | add _ _ iha ihb => exact RoundedTime.amount_add iha ihb
  | mul _ _ iha ihb => exact RoundedTime.amount_mul iha ihb
  | div n _ ih => exact RoundedTime.amount_div n ih
  | checked h => exact .inl h

theorem isLength_product {factors : List τ} (h : ∀ a ∈ factors, IsLength a) :
    IsLength (TimeValue.product factors) := by
  suffices ∀ start : τ, IsLength start → IsLength (factors.foldl (· * ·) start) from
    this _ (.units 1)
  induction factors with
  | nil => exact fun _ hs => hs
  | cons a factors ih =>
      intro start hs
      exact ih (fun b hb => h b (by simp [hb])) _ (hs.mul (h a (by simp)))

/-! ## Exact time -/

theorem notLater_iff {a b : Rat} : NotLater a b ↔ a ≤ b := by
  unfold NotLater TimeValue.compare instTimeValueRat
  dsimp only
  split
  · next h => simp [h.le]
  · next h =>
    split
    · next h' => simp [h'.le]
    · next h' => simpa using lt_of_le_of_ne (not_lt.mp h) (Ne.symm h')

theorem later_eq (a b : Rat) : TimeValue.later a b = max a b := by
  unfold TimeValue.later instTimeValueRat
  dsimp only
  split
  · next h => exact (max_eq_right h).symm
  · next h => exact (max_eq_left (not_le.mp h).le).symm

theorem notAfter_iff {α : Type} {time : α → Rat} {rank : α → Nat} {a b : α} :
    TimeValue.notAfter time rank a b = true ↔
      time a < time b ∨ (time a = time b ∧ rank a ≤ rank b) := by
  unfold TimeValue.notAfter TimeValue.compare instTimeValueRat
  dsimp only
  by_cases hlt : time a < time b
  · simp [hlt]
  · by_cases heq : time a = time b
    · simp [heq]
    · simp [hlt, heq]

theorem isAmount_iff {a : Rat} : IsAmount a ↔ 0 ≤ a := by
  have hdefined : ¬IsUndefined a := by
    show decide (a ≤ a) ≠ false
    simp
  exact (or_iff_left hdefined).trans (decide_eq_true_iff (p := (0 : Rat) ≤ a))

instance : ComparableTime Rat where
  refl a := notLater_iff.mpr le_rfl
  trans hab hbc := notLater_iff.mpr ((notLater_iff.mp hab).trans (notLater_iff.mp hbc))
  le_later b _ := notLater_iff.mpr (by rw [later_eq]; exact le_max_left _ _)
  swap a b := by
    unfold TimeValue.compare instTimeValueRat
    rcases lt_trichotomy a b with h | rfl | h
    · simp [h, h.ne', h.not_gt]
    · simp
    · simp [h, h.ne', h.not_gt]
  later_eq a b := by
    rw [later_eq]
    rcases lt_trichotomy a b with h | rfl | h
    · simp [TimeValue.compare, h, h.le]
    · simp [TimeValue.compare]
    · simp [TimeValue.compare, h.ne', h.not_gt, h.le]
  eq_of_compare_eq {a b} _ h := by
    unfold TimeValue.compare instTimeValueRat at h
    dsimp only at h
    split at h
    · cases h
    · next hlt =>
      split at h
      · next heq => exact heq
      · cases h

instance : RoundedTime Rat where
  not_zero_le h := absurd h (by simp [IsUndefined, TimeValue.le])
  undefined_add b h := absurd h (by simp [IsUndefined, TimeValue.le])
  amount_ofNat n := isAmount_iff.mpr (show (0 : Rat) ≤ n by positivity)
  amount_add ha hb := isAmount_iff.mpr (add_nonneg (isAmount_iff.mp ha) (isAmount_iff.mp hb))
  amount_mul ha hb := isAmount_iff.mpr (mul_nonneg (isAmount_iff.mp ha) (isAmount_iff.mp hb))
  amount_div n ha := isAmount_iff.mpr
    (div_nonneg (isAmount_iff.mp ha) (show (0 : Rat) ≤ n by positivity))
  le_add {a b} _ hb := .inl (notLater_iff.mpr (le_add_of_nonneg_right (isAmount_iff.mp hb)))

theorem IsLength.nonneg {a : Rat} (h : IsLength a) : 0 ≤ a := isAmount_iff.mp h.isAmount

end ScorePlayback
