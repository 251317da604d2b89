import Mathlib
import ScorePlayback.Time.Binary

/-! # How doubles are rounded

A finite double is a mantissa times a power of two, and there is one way to write it that its bits
can give. If it is not negative, its bits are its place among all such doubles. A number is rounded
in three steps: digits are dropped, the last digit that is kept may go up by one, and if there is
one digit too many then, it is dropped too. So nothing is rounded below a double that it exceeds. -/

namespace ScorePlayback.Binary64

open Float.Model hiding pack unpack
open Float.Model.UnpackedFloat

/-- A mantissa and an exponent as the bits of a double give them. -/
structure IsCanonical (mantissa : Nat) (exponent : Int) : Prop where
  lt : mantissa < 2 ^ 53
  le : -1074 ≤ exponent
  normal : 2 ^ 52 ≤ mantissa ∨ exponent = -1074

/-- Where a number stands among all doubles that are not negative. -/
def place (mantissa : Nat) (exponent : Int) : Int := (exponent + 1074) * 2 ^ 52 + mantissa

theorem place_le_place {m m' : Nat} {e e' : Int} (h : IsCanonical m e) (h' : IsCanonical m' e')
    (he : e ≤ e') (hm : e = e' → m ≤ m') : place m e ≤ place m' e' := by
  have hlt := h.lt
  have hle := h.le
  unfold place
  rcases he.eq_or_lt with rfl | he
  · have := hm rfl
    omega
  · have hnormal : 2 ^ 52 ≤ m' := h'.normal.resolve_right (by omega)
    omega

/-! ## Shifting -/

theorem mantissa_shiftRight (em : ExtendedMantissa) (k : Nat) :
    (em >>> k).mantissa = em.mantissa / 2 ^ k := by
  show (Nat.repeat ExtendedMantissa.shiftRightOne k em).mantissa = _
  induction k with
  | zero => exact (Nat.div_one _).symm
  | succ k ih =>
      rw [Nat.repeat, ExtendedMantissa.shiftRightOne]
      dsimp only
      rw [ih, Nat.div_div_eq_div_mul, ← pow_succ]

theorem mantissa_ofMantissaAndAccuracy (m : Nat) (accuracy : Accuracy) :
    (ExtendedMantissa.ofMantissaAndAccuracy m accuracy).mantissa = m := by
  rcases accuracy with _ | relative
  · rfl
  · cases relative <;> rfl

/-- Rounding leads to a whole number next to the one it starts from. -/
theorem roundedMantissa_bounds (em : ExtendedMantissa) :
    em.mantissa ≤ em.roundedMantissa ∧ em.roundedMantissa ≤ em.mantissa + 1 := by
  have hmod := Nat.mod_lt em.mantissa (by decide : 0 < 2)
  unfold ExtendedMantissa.roundedMantissa
  rcases em.accuracy with _ | relative
  · exact ⟨le_rfl, Nat.le_succ _⟩
  · cases relative <;> constructor <;> simp only [Accuracy.roundToNearestEven] <;> omega

/-- The exponent that a number is rounded to. -/
def target (m : Nat) (e : Int) : Int := max (m.log2 + 1 + e - 53) (-1074)

/-- A number that has enough digits for its exponent is canonical after the others have been
dropped. -/
theorem isCanonical_div {m : Nat} (hm : 0 < m) {e : Int} (he : e ≤ target m e) :
    IsCanonical (m / 2 ^ (target m e - e).toNat) (target m e) := by
  have hlog : 2 ^ m.log2 ≤ m := (Nat.le_log2 hm.ne').mp le_rfl
  have hlog' : m < 2 ^ (m.log2 + 1) := (Nat.log2_lt hm.ne').mp (Nat.lt_succ_self _)
  obtain ⟨k, hk⟩ : ∃ k : Nat, (target m e - e).toNat = k := ⟨_, rfl⟩
  have htarget : m.log2 + 1 ≤ 53 + k := by unfold target at *; omega
  rw [hk]
  refine ⟨?_, le_max_right _ _, ?_⟩
  · rw [Nat.div_lt_iff_lt_mul (Nat.two_pow_pos k), ← pow_add]
    exact hlog'.trans_le (Nat.pow_le_pow_right (by decide) htarget)
  · by_cases hmin : target m e = -1074
    · exact .inr hmin
    · left
      rw [Nat.le_div_iff_mul_le (Nat.two_pow_pos k), ← pow_add]
      exact (Nat.pow_le_pow_right (by decide) (by unfold target at *; omega)).trans hlog

theorem shiftToTargetExponent_eq (m : Nat) (e : Int) (accuracy : Accuracy) (he : e ≤ target m e) :
    (shiftToTargetExponent .binary64 m e accuracy).1.mantissa = m / 2 ^ (target m e - e).toNat ∧
      (shiftToTargetExponent .binary64 m e accuracy).2 = target m e := by
  constructor
  · exact (mantissa_shiftRight _ _).trans (by rw [mantissa_ofMantissaAndAccuracy]; rfl)
  · show e + ((target m e - e).toNat : Int) = target m e
    omega

theorem IsCanonical.target_eq {m : Nat} {e : Int} (h : IsCanonical m e) (hm : 0 < m) :
    target m e = e := by
  have hlt : m.log2 < 53 := (Nat.log2_lt hm.ne').mpr h.lt
  have hle := h.le
  unfold target
  rcases h.normal with hnormal | rfl
  · have hle' : 52 ≤ m.log2 := (Nat.le_log2 hm.ne').mpr hnormal
    omega
  · omega

/-- A mantissa that has been rounded up may have one digit too many. Then it is a power of two. -/
theorem IsCanonical.shiftToTargetExponent {m : Nat} {e : Int} (h : IsCanonical m e) (hm : 0 < m)
    {rounded : Nat} (hle : m ≤ rounded) (hle' : rounded ≤ m + 1) :
    let shifted := shiftToTargetExponent .binary64 rounded e .exact
    0 < shifted.1.mantissa ∧ IsCanonical shifted.1.mantissa shifted.2 ∧
      place m e ≤ place shifted.1.mantissa shifted.2 := by
  dsimp only
  have hlt := h.lt
  have hmin := h.le
  rcases (show rounded ≤ 2 ^ 53 by omega).lt_or_eq with hfits | rfl
  · have hrounded : IsCanonical rounded e := ⟨hfits, h.le, h.normal.imp_left hle.trans'⟩
    have htarget := hrounded.target_eq (hm.trans_le hle)
    obtain ⟨hmantissa, hexponent⟩ := shiftToTargetExponent_eq rounded e .exact htarget.ge
    rw [htarget] at hexponent
    rw [htarget, sub_self, Int.toNat_zero, pow_zero, Nat.div_one] at hmantissa
    rw [hmantissa, hexponent]
    exact ⟨hm.trans_le hle, hrounded, place_le_place h hrounded le_rfl fun _ => hle⟩
  · have htarget : target (2 ^ 53) e = e + 1 := by
      rw [target, Nat.log2_two_pow]
      omega
    obtain ⟨hmantissa, hexponent⟩ := shiftToTargetExponent_eq (2 ^ 53) e .exact (by omega)
    rw [htarget] at hexponent
    rw [htarget, add_sub_cancel_left, Int.toNat_one, pow_one] at hmantissa
    rw [hmantissa, hexponent]
    have hpower : IsCanonical (2 ^ 53 / 2) (e + 1) := ⟨by decide, by omega, .inl (by decide)⟩
    exact ⟨by decide, hpower, place_le_place h hpower (by omega) (by omega)⟩

/-- Rounding leads to a canonical number, and not below the digits that are kept. -/
theorem exists_roundWithAccuracy_eq {m : Nat} {e : Int} (he : e ≤ target m e)
    (hm : 0 < m / 2 ^ (target m e - e).toNat) (sign : Sign) (accuracy : Accuracy) :
    ∃ m' e' h, roundWithAccuracy .binary64 sign m e accuracy = .finite sign m' e' h ∧
      IsCanonical m' e' ∧ place (m / 2 ^ (target m e - e).toNat) (target m e) ≤ place m' e' := by
  have hpos : 0 < m := Nat.pos_of_ne_zero fun h => by simp [h] at hm
  obtain ⟨hmantissa, hexponent⟩ := shiftToTargetExponent_eq m e accuracy he
  obtain ⟨hle, hle'⟩ :=
    roundedMantissa_bounds (shiftToTargetExponent .binary64 m e accuracy).1
  rw [hmantissa] at hle hle'
  obtain ⟨hpos', hcanonical, hplace⟩ :=
    (isCanonical_div hpos he).shiftToTargetExponent hm hle hle'
  rw [← hexponent] at hcanonical hplace hpos'
  refine ⟨_, _, hpos', ?_, hcanonical, by rw [← hexponent]; exact hplace⟩
  exact dif_neg hpos'.ne'

/-! ## Sums -/

theorem le_log2_of_mul_le {m m' k : Nat} (hm : 0 < m) (h : m * 2 ^ k ≤ m') :
    m.log2 + k ≤ m'.log2 := by
  have hpos : 0 < m * 2 ^ k := Nat.mul_pos hm (Nat.two_pow_pos k)
  rw [Nat.le_log2 (hpos.trans_le h).ne', pow_add]
  exact (Nat.mul_le_mul_right _ ((Nat.le_log2 hm.ne').mp le_rfl)).trans h

theorem log2_mul_two_pow {m : Nat} (hm : 0 < m) (k : Nat) : (m * 2 ^ k).log2 = m.log2 + k := by
  refine le_antisymm (Nat.lt_succ_iff.mp ?_) (le_log2_of_mul_le hm le_rfl)
  rw [Nat.log2_lt (Nat.mul_pos hm (Nat.two_pow_pos k)).ne', Nat.succ_eq_add_one, Nat.add_right_comm,
    pow_add]
  exact Nat.mul_lt_mul_of_pos_right ((Nat.log2_lt hm.ne').mp (Nat.lt_succ_self _))
    (Nat.two_pow_pos k)

/-- What is at least as large as a canonical number is not rounded below it. -/
theorem exists_round_eq {m₁ : Nat} {e₁ : Int} (h₁ : IsCanonical m₁ e₁) (hm₁ : 0 < m₁) {m : Nat}
    {e : Int} (hle : e ≤ e₁) (hm : m₁ * 2 ^ (e₁ - e).toNat ≤ m) (sign : Sign) :
    ∃ m' e' h, round .binary64 sign m e = .finite sign m' e' h ∧ IsCanonical m' e' ∧
      place m₁ e₁ ≤ place m' e' := by
  have hpos : 0 < m := (Nat.mul_pos hm₁ (Nat.two_pow_pos _)).trans_le hm
  obtain ⟨k, hk⟩ : ∃ k : Nat, (e - target m e).toNat = k := ⟨_, rfl⟩
  have htarget : target (m * 2 ^ k) (e - k) = target m e := by
    rw [target, target, log2_mul_two_pow hpos]
    push_cast
    omega
  have hshift : e - k ≤ target (m * 2 ^ k) (e - k) := by rw [htarget]; omega
  have hcanonical := isCanonical_div (Nat.mul_pos hpos (Nat.two_pow_pos k)) hshift
  have hexponent : e₁ ≤ target m e := by
    have hlog := le_log2_of_mul_le hm₁ hm
    have h₁' := h₁.target_eq hm₁
    unfold target at h₁' ⊢
    omega
  rw [htarget] at hcanonical
  have hmantissa (heq : e₁ = target m e) :
      m₁ ≤ m * 2 ^ k / 2 ^ (target m e - (e - k)).toNat := by
    obtain rfl : k = 0 := by omega
    rw [← heq, Nat.le_div_iff_mul_le (Nat.two_pow_pos _)]
    simpa using hm
  have hkept : 0 < m * 2 ^ k / 2 ^ (target m e - (e - k)).toNat := by
    rcases hcanonical.normal with hnormal | hmin
    · omega
    · have := h₁.le
      exact hm₁.trans_le (hmantissa (by omega))
  obtain ⟨m', e', hm', heq, hcanonical', hplace⟩ :=
    exists_roundWithAccuracy_eq hshift (by rwa [htarget]) sign .exact
  refine ⟨m', e', hm', ?_, hcanonical', ?_⟩
  · rw [← heq, ← hk, ← Nat.shiftLeft_eq]
    rfl
  · rw [htarget] at hplace
    exact (place_le_place h₁ hcanonical hexponent hmantissa).trans hplace

/-! ## Bits -/

/-- The bits of the double that has no bound. -/
def infinityBits : Nat := 2047 * 2 ^ 52

theorem toNat_packComponents (exponent : BitVec 11) (fraction : BitVec 52) :
    (packComponents .binary64 .positive exponent fraction).toNat =
      exponent.toNat * 2 ^ 52 + fraction.toNat := by
  unfold packComponents
  rw [BitVec.toNat_append, ← Nat.shiftLeft_add_eq_or_of_lt fraction.isLt, BitVec.toNat_append,
    ← Nat.shiftLeft_add_eq_or_of_lt exponent.isLt, Nat.shiftLeft_eq, Nat.shiftLeft_eq]
  show (0 * 2 ^ 11 + exponent.toNat) * 2 ^ 52 + fraction.toNat = _
  omega

/-- A canonical number has its place as its bits, unless it is too large for a double. -/
theorem toNat_pack {m : Nat} {e : Int} (h : IsCanonical m e) (hm : 0 < m) :
    ((pack .binary64 (.finite .positive m e hm)).toNat : Int) = min (place m e) infinityBits := by
  have hlt := h.lt
  have hle := h.le
  have hlog : m.log2 < 53 := (Nat.log2_lt hm.ne').mpr h.lt
  show ((if 2048 ≤ (e + 1023 + 52).toNat + 1 then packedInfinity .binary64 .positive
    else if m.log2 + 1 = 53 then packComponents .binary64 .positive
      (BitVec.ofNat 11 (e + 1023 + 52).toNat) (BitVec.ofNat 52 m)
    else packComponents .binary64 .positive 0#11 (BitVec.ofNat 52 m)).toNat : Int) = _
  unfold place infinityBits
  split
  · have hnormal : 2 ^ 52 ≤ m := h.normal.resolve_right (by omega)
    rw [packedInfinity, toNat_packComponents]
    show ((2047 * 2 ^ 52 + 0 : Nat) : Int) = _
    omega
  · split
    · next hlog =>
      have hnormal : 2 ^ 52 ≤ m := (Nat.le_log2 hm.ne').mp (by omega)
      rw [toNat_packComponents, BitVec.toNat_ofNat, BitVec.toNat_ofNat]
      omega
    · have hsubnormal : m < 2 ^ 52 := (Nat.log2_lt hm.ne').mp (by omega)
      have hmin := h.normal.resolve_left (by omega)
      rw [toNat_packComponents, BitVec.toNat_ofNat, BitVec.toNat_ofNat]
      omega

/-! ### What the bits of a double say -/

theorem toNat_unpackExponent (b : BitVec 64) :
    (@unpackExponent .binary64 b).toNat = b.toNat / 2 ^ 52 % 2 ^ 11 := by
  rw [unpackExponent_def, BitVec.extractLsb'_toNat, Nat.shiftRight_eq_div_pow]

theorem toNat_unpackMantissa (b : BitVec 64) :
    (@unpackMantissa .binary64 b).toNat = b.toNat % 2 ^ 52 := by
  rw [unpackMantissa_def, BitVec.extractLsb'_toNat, Nat.shiftRight_zero]

theorem toNat_unpackSign (b : BitVec 64) :
    (@unpackSign .binary64 b).toNat = b.toNat / 2 ^ 63 := by
  have hlt := b.isLt
  rw [unpackSign_def, BitVec.extractLsb'_toNat, Nat.shiftRight_eq_div_pow]
  show b.toNat / 2 ^ 63 % 2 = _
  omega

end ScorePlayback.Binary64
