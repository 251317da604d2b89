import ScorePlayback.Proofs.Time.Order
import ScorePlayback.Proofs.Time.Rounding

/-! # Doubles measure time

Doubles are rounded, their sums may be infinite, and some operations give what is no number. Still
they are in order, the later one of two is found by comparing, and adding a length of time leads to
no earlier time. So what is derived from these laws is true of the times of playback. -/

namespace ScorePlayback

open TimeValue (NotLater IsUndefined IsAmount)

namespace Binary64

open Float.Model hiding pack unpack
open Float.Model.UnpackedFloat

/-! ## Signs -/

/-- A number with a minus sign. -/
def IsMinus : UnpackedFloat → Prop
  | .infinity s | .zero s | .finite s _ _ _ => s = .negative
  | .notANumber => False

/-- What is not below zero. It may be minus zero, or no number. -/
def NotBelow : UnpackedFloat → Prop
  | .infinity s | .finite s _ _ _ => s = .positive
  | .zero _ | .notANumber => True

@[simp] theorem not_eq_negative {s : Sign} : ¬s = .negative ↔ s = .positive := by
  cases s <;> simp

theorem toNat_packComponents_lt {s : Sign} (hs : s = .positive) (exponent : BitVec 11)
    (fraction : BitVec 52) :
    (packComponents .binary64 s exponent fraction).toNat < 2 ^ 63 := by
  rw [hs, toNat_packComponents]
  omega

theorem toNat_pack_lt {f : UnpackedFloat} (h : ¬IsMinus f) :
    (pack .binary64 f).toNat < 2 ^ 63 := by
  cases f with
  | infinity s => exact toNat_packComponents_lt (not_eq_negative.mp h) _ _
  | notANumber => decide
  | zero s => exact toNat_packComponents_lt (not_eq_negative.mp h) _ _
  | finite s m e hm =>
      rw [pack]
      dsimp only
      split
      · exact toNat_packComponents_lt (not_eq_negative.mp h) _ _
      · split
        · exact toNat_packComponents_lt (not_eq_negative.mp h) _ _
        · exact toNat_packComponents_lt (not_eq_negative.mp h) _ _

theorem sign_unpack_iff {b : BitVec 64} :
    Sign.ofBitVec (@unpackSign .binary64 b) = .positive ↔ b.toNat < 2 ^ 63 := by
  have hsign : @unpackSign .binary64 b = 0#1 ↔ b.toNat < 2 ^ 63 := by
    rw [← BitVec.toNat_inj, toNat_unpackSign]
    show b.toNat / 2 ^ 63 = 0 ↔ _
    omega
  unfold Sign.ofBitVec
  split <;> simp_all

/-- What a double stands for is read from its sign, its exponent and its fraction. -/
inductive IsRead (s : Sign) (exponent fraction : Nat) : UnpackedFloat → Prop where
  | infinity (he : exponent = 2047) (hf : fraction = 0) : IsRead s exponent fraction (.infinity s)
  | notANumber (he : exponent = 2047) (hf : fraction ≠ 0) : IsRead s exponent fraction .notANumber
  | zero (he : exponent = 0) (hf : fraction = 0) : IsRead s exponent fraction (.zero s)
  | subnormal (he : exponent = 0) (hf : 0 < fraction) :
      IsRead s exponent fraction (.finite s fraction (-1074) hf)
  | normal (he : 0 < exponent) (he' : exponent < 2047) (hm : 0 < 2 ^ 52 + fraction) :
      IsRead s exponent fraction (.finite s (2 ^ 52 + fraction) (exponent - 1075) hm)

theorem isRead_unpack (b : BitVec 64) :
    IsRead (Sign.ofBitVec (@unpackSign .binary64 b)) (b.toNat / 2 ^ 52 % 2 ^ 11)
      (b.toNat % 2 ^ 52) (unpack .binary64 b) := by
  rw [← toNat_unpackMantissa, ← toNat_unpackExponent]
  have hbias : (Format.binary64.exponentBias : Int) + (52 : Nat) = 1075 := rfl
  have hlt : (@unpackExponent .binary64 b).toNat < 2048 := BitVec.isLt _
  unfold unpack
  dsimp only
  rw [hbias]
  split
  · next he =>
    split
    · next hf => exact .infinity (congrArg BitVec.toNat he) (congrArg BitVec.toNat hf)
    · next hf =>
      exact .notANumber (congrArg BitVec.toNat he) fun h => hf (BitVec.eq_of_toNat_eq h)
  · next hne =>
    split
    · next he =>
      split
      · next hf => exact .zero (congrArg BitVec.toNat he) (congrArg BitVec.toNat hf)
      · next hf =>
        have hpos := Nat.pos_of_ne_zero fun h => hf (BitVec.eq_of_toNat_eq h)
        have hexponent := congrArg BitVec.toNat he
        convert IsRead.subnormal hexponent hpos using 2
        rw [hexponent]
        rfl
    · next he =>
      have hpos := Nat.pos_of_ne_zero fun h => he (BitVec.eq_of_toNat_eq h)
      have hones : (@unpackExponent .binary64 b).toNat ≠ 2047 :=
        fun h => hne (BitVec.eq_of_toNat_eq h)
      have himplicit : (1#1 ++ @unpackMantissa .binary64 b).toNat =
          2 ^ 52 + (@unpackMantissa .binary64 b).toNat := by
        rw [BitVec.toNat_append, ← Nat.shiftLeft_add_eq_or_of_lt (BitVec.isLt _)]
        rfl
      convert IsRead.normal hpos (by omega) (by omega) using 2

theorem not_isMinus_unpack {b : BitVec 64} (h : b.toNat < 2 ^ 63) :
    ¬IsMinus (unpack .binary64 b) := by
  have hread := isRead_unpack b
  rw [sign_unpack_iff.mpr h] at hread
  generalize unpack .binary64 b = f at hread
  cases hread <;> nofun

theorem NotBelow.of_not_isMinus {f : UnpackedFloat} (h : ¬IsMinus f) : NotBelow f := by
  cases f with
  | infinity s | finite s => cases s <;> simp_all [IsMinus, NotBelow]
  | _ => trivial

theorem not_isMinus_unpack_pack {f : UnpackedFloat} (h : ¬IsMinus f) :
    ¬IsMinus (unpack .binary64 (pack .binary64 f)) :=
  not_isMinus_unpack (toNat_pack_lt h)

theorem NotBelow.unpack_pack {f : UnpackedFloat} (h : NotBelow f) :
    NotBelow (unpack .binary64 (pack .binary64 f)) := by
  cases f with
  | zero s => cases s <;> trivial
  | _ => exact .of_not_isMinus (not_isMinus_unpack_pack (by simp_all [IsMinus, NotBelow]))

/-! ### Signs of results -/

theorem not_isMinus_roundWithAccuracy (m : Nat) (e : Int) (accuracy : Accuracy) :
    ¬IsMinus (roundWithAccuracy .binary64 .positive m e accuracy) := by
  unfold roundWithAccuracy
  dsimp only
  split
  · nofun
  · nofun

theorem not_isMinus_normalize {m : Int} (hm : 0 ≤ m) (e : Int) :
    ¬IsMinus (UnpackedFloat.normalize .binary64 m e .positive) := by
  unfold UnpackedFloat.normalize
  split
  · next h => exact absurd (compare_lt_iff_lt.mp h) hm.not_gt
  · nofun
  · exact not_isMinus_roundWithAccuracy _ _ _

theorem normalize_natCast {m : Nat} (hm : 0 < m) (e : Int) :
    UnpackedFloat.normalize .binary64 m e .positive = .round .binary64 .positive m e := by
  unfold UnpackedFloat.normalize
  rw [compare_gt_iff_gt.mpr (Int.natCast_pos.mpr hm)]
  rfl

@[simp] theorem positive_mul_positive : (.positive * .positive : Sign) = .positive := rfl

@[simp] theorem positive_div_positive : (.positive / .positive : Sign) = .positive := rfl

variable {f g : UnpackedFloat}

theorem not_isMinus_mul (hf : ¬IsMinus f) (hg : ¬IsMinus g) : ¬IsMinus (mul .binary64 f g) := by
  cases f <;> cases g
  case finite.finite s m e hm s' m' e' hm' =>
    obtain rfl : s = .positive := not_eq_negative.mp hf
    obtain rfl : s' = .positive := not_eq_negative.mp hg
    exact not_isMinus_roundWithAccuracy _ _ _
  all_goals simp_all [IsMinus, UnpackedFloat.mul]

namespace NotBelow

theorem add (hf : NotBelow f) (hg : NotBelow g) : NotBelow (add .binary64 f g) := by
  cases f <;> cases g
  case finite.finite s m e hm s' m' e' hm' =>
    obtain rfl : s = .positive := hf
    obtain rfl : s' = .positive := hg
    exact .of_not_isMinus (not_isMinus_normalize (Int.natCast_nonneg (_ + _)) _)
  case zero.zero s s' => cases s <;> cases s' <;> trivial
  case infinity.infinity s s' =>
    obtain rfl : s = .positive := hf
    obtain rfl : s' = .positive := hg
    trivial
  all_goals simp_all [NotBelow, UnpackedFloat.add]

theorem mul (hf : NotBelow f) (hg : NotBelow g) : NotBelow (mul .binary64 f g) := by
  cases f <;> cases g
  case finite.finite s m e hm s' m' e' hm' =>
    obtain rfl : s = .positive := hf
    obtain rfl : s' = .positive := hg
    exact .of_not_isMinus (not_isMinus_roundWithAccuracy _ _ _)
  all_goals simp_all [NotBelow, UnpackedFloat.mul]

theorem div (hf : NotBelow f) (hg : ¬IsMinus g) : NotBelow (div .binary64 f g) := by
  have hg' := of_not_isMinus hg
  cases f <;> cases g
  case finite.finite s m e hm s' m' e' hm' =>
    obtain rfl : s = .positive := hf
    obtain rfl : s' = .positive := hg'
    exact .of_not_isMinus (not_isMinus_roundWithAccuracy _ _ _)
  all_goals simp_all [NotBelow, IsMinus, UnpackedFloat.div]

end NotBelow

/-! ## Places -/

/-- What is finite is written in the one way that bits can give. -/
def IsWritten : UnpackedFloat → Prop
  | .finite _ m e _ => IsCanonical m e
  | _ => True

theorem isWritten_unpack (b : BitVec 64) : IsWritten (unpack .binary64 b) := by
  have hfraction : b.toNat % 2 ^ 52 < 2 ^ 52 := Nat.mod_lt _ (by decide)
  have hread := isRead_unpack b
  generalize unpack .binary64 b = f at hread
  cases hread with
  | subnormal he hf => exact ⟨by omega, le_rfl, .inr rfl⟩
  | normal he he' => exact ⟨by omega, by omega, .inl (by omega)⟩
  | _ => trivial

/-- Where a number stands among those that have no minus sign. -/
inductive HasPlace : Int → UnpackedFloat → Prop where
  | zero : HasPlace 0 (.zero .positive)
  | finite {m : Nat} {e : Int} (h : IsCanonical m e) (hm : 0 < m) :
      HasPlace (place m e) (.finite .positive m e hm)
  | infinity : HasPlace infinityBits (.infinity .positive)

theorem hasPlace_unpack {b : BitVec 64} (h : b.toNat ≤ infinityBits) :
    HasPlace b.toNat (unpack .binary64 b) := by
  unfold infinityBits at h
  have hread := isRead_unpack b
  have hwritten := isWritten_unpack b
  rw [sign_unpack_iff.mpr (by omega)] at hread
  generalize unpack .binary64 b = f at hread hwritten
  cases hread with
  | notANumber he hf => omega
  | infinity he hf =>
      rw [show b.toNat = infinityBits by unfold infinityBits; omega]
      exact .infinity
  | zero he hf =>
      rw [show b.toNat = 0 by omega]
      exact .zero
  | subnormal he hf =>
      rw [show (b.toNat : Int) = place (b.toNat % 2 ^ 52) (-1074) by unfold place; omega]
      exact .finite hwritten hf
  | normal he he' hm =>
      rw [show (b.toNat : Int) = place (2 ^ 52 + b.toNat % 2 ^ 52)
        (b.toNat / 2 ^ 52 % 2 ^ 11 - 1075 : Int) by unfold place; omega]
      exact .finite hwritten hm

/-- A sum of two numbers is not below the first one. -/
theorem exists_add_eq {m m' : Nat} {e : Int} (h : IsCanonical m e) (hm : 0 < m) (hm' : 0 < m')
    (e' : Int) : ∃ k l hk,
      add .binary64 (.finite .positive m e hm) (.finite .positive m' e' hm') =
        .finite .positive k l hk ∧ IsCanonical k l ∧ place m e ≤ place k l := by
  have hsum : m * 2 ^ (e - min e e').toNat ≤
      m <<< (e - min e e').toNat + m' <<< (e' - min e e').toNat := by
    rw [Nat.shiftLeft_eq]
    exact Nat.le_add_right _ _
  have hpos := (Nat.mul_pos hm (Nat.two_pow_pos _)).trans_le hsum
  obtain ⟨k, l, hk, hround, hcanonical, hle⟩ :=
    exists_round_eq h hm (min_le_left e e') hsum .positive
  exact ⟨k, l, hk, (normalize_natCast hpos _).trans hround, hcanonical, hle⟩

namespace HasPlace

variable {k : Int}

theorem toNat_pack (h : HasPlace k f) :
    ((pack .binary64 f).toNat : Int) = min k infinityBits := by
  cases h with
  | zero => decide
  | finite h hm => exact Binary64.toNat_pack h hm
  | infinity => decide

theorem ne_notANumber (h : HasPlace k f) : f ≠ .notANumber := by
  rintro rfl
  cases h

/-- What is added does not lead to an earlier place. -/
theorem add (h : HasPlace k f) (hk : k ≤ infinityBits) (hg : NotBelow g) (hg' : IsWritten g) :
    (∃ k', k ≤ k' ∧ HasPlace k' (add .binary64 f g)) ∨ add .binary64 f g = .notANumber := by
  cases h with
  | infinity =>
      cases g with
      | notANumber => exact .inr rfl
      | infinity s =>
          obtain rfl : s = .positive := hg
          exact .inl ⟨_, le_rfl, .infinity⟩
      | _ => exact .inl ⟨_, le_rfl, .infinity⟩
  | zero =>
      cases g with
      | notANumber => exact .inr rfl
      | zero s => exact .inl ⟨0, le_rfl, by cases s <;> exact .zero⟩
      | infinity s =>
          obtain rfl : s = .positive := hg
          exact .inl ⟨_, by decide, .infinity⟩
      | finite s m e hm =>
          obtain rfl : s = .positive := hg
          have hmin := hg'.le
          exact .inl ⟨_, by unfold place; omega, .finite hg' hm⟩
  | @finite m e h hm =>
      cases g with
      | notANumber => exact .inr rfl
      | zero s => exact .inl ⟨_, le_rfl, .finite h hm⟩
      | infinity s =>
          obtain rfl : s = .positive := hg
          exact .inl ⟨_, hk, .infinity⟩
      | finite s m' e' hm' =>
          obtain rfl : s = .positive := hg
          obtain ⟨k, l, hk, hadd, hcanonical, hle⟩ := exists_add_eq h hm hm' e'
          rw [hadd]
          exact .inl ⟨_, hle, .finite hcanonical hk⟩

end HasPlace

/-! ## Doubles -/

theorem le_eq (a b : Float) : TimeValue.le a b = a.toModel.unpack.le b.toModel.unpack := by
  show decide (decide (a.toModel.unpack.le b.toModel.unpack = true) = true) = _
  rw [Bool.decide_eq_true, Bool.decide_eq_true]

theorem isUndefined_iff {a : Float} : IsUndefined a ↔ a.toModel.unpack = .notANumber := by
  rw [IsUndefined, le_eq]
  generalize a.toModel.unpack = f
  cases f with
  | notANumber | zero s => simp [UnpackedFloat.le, UnpackedFloat.compare]
  | infinity s | finite s => cases s <;> simp [UnpackedFloat.le, UnpackedFloat.compare]

theorem isAmount_iff {a : Float} : IsAmount a ↔ NotBelow a.toModel.unpack := by
  have hzero : (TimeValue.zero : Float).toModel.unpack = .zero .positive := rfl
  rw [IsAmount, isUndefined_iff, le_eq, hzero]
  generalize a.toModel.unpack = f
  cases f with
  | notANumber | zero s => simp [UnpackedFloat.le, UnpackedFloat.compare, NotBelow]
  | infinity s | finite s => cases s <;> simp [UnpackedFloat.le, UnpackedFloat.compare, NotBelow]

/-! ### The order -/

theorem ofBits_eq_nan_iff {bits : Nat} :
    ofBits bits = .nan ↔ bits / 2 ^ 52 % 2 ^ 11 = 2047 ∧ bits % 2 ^ 52 ≠ 0 := by
  show (if bits / 2 ^ 52 % 2 ^ 11 = 2047 then
      if bits % 2 ^ 52 = 0 then infinite (bits / 2 ^ 63 % 2 == 1) else nan
    else if bits / 2 ^ 52 % 2 ^ 11 = 0 then finite _ _ _ else finite _ _ _) = nan ↔ _
  split
  · next hfield => split <;> simp_all
  · next hfield => split <;> simp_all

theorem orderKey_eq (a : Float) : orderKey a =
    if a.toBits.toNat / 2 ^ 52 % 2 ^ 11 = 2047 ∧ a.toBits.toNat % 2 ^ 52 ≠ 0 then -2 ^ 64
    else if a.toBits.toNat < 2 ^ 63 then (a.toBits.toNat : Int)
    else 2 ^ 63 - 1 - (a.toBits.toNat : Int) := by
  rw [orderKey]
  exact if_congr ofBits_eq_nan_iff rfl rfl

theorem orderKey_eq_toNat {a : Float} (h : a.toBits.toNat ≤ infinityBits) :
    orderKey a = a.toBits.toNat := by
  unfold infinityBits at h
  rw [orderKey_eq, if_neg (by omega), if_pos (by omega)]

theorem orderKey_neg {a : Float} (h : infinityBits < a.toBits.toNat) : orderKey a < 0 := by
  unfold infinityBits at h
  rw [orderKey_eq]
  split
  · decide
  · rw [if_neg (by omega)]
    omega

theorem notLater_iff {a b : Float} : NotLater a b ↔ orderKey a ≤ orderKey b := Int.compare_ne_gt

theorem zero_notLater_iff {a : Float} :
    NotLater TimeValue.zero a ↔ a.toBits.toNat ≤ infinityBits := by
  have hzero : orderKey (TimeValue.zero : Float) = 0 := by decide
  rw [notLater_iff, hzero]
  rcases Nat.lt_or_ge infinityBits a.toBits.toNat with h | h
  · have := orderKey_neg h
    omega
  · have := orderKey_eq_toNat h
    omega

instance : ComparableTime Float where
  refl a := notLater_iff.mpr le_rfl
  trans hab hbc := notLater_iff.mpr ((notLater_iff.mp hab).trans (notLater_iff.mp hbc))
  le_later {a} b _ := by
    rw [notLater_iff]
    show _ ≤ orderKey (if orderKey a < orderKey b then b else a)
    split <;> omega
  swap a b := (Int.compare_swap _ _).symm
  later_eq a b := if_congr compare_lt_iff_lt.symm rfl rfl
  eq_of_compare_eq {a b} ha h := by
    have hkeys : orderKey a = orderKey b := Int.compare_eq_eq.mp h
    have hb := notLater_iff.mpr ((notLater_iff.mp ha).trans hkeys.le)
    rw [zero_notLater_iff] at ha hb
    rw [orderKey_eq_toNat ha, orderKey_eq_toNat hb] at hkeys
    exact Float.toBits_inj.mp (UInt64.toNat_inj.mp (Int.ofNat.inj hkeys))

/-! ### The laws of rounded time -/

theorem not_isMinus_ofScientific (m : Nat) (e : Int) :
    ¬IsMinus (UnpackedFloat.ofScientific .binary64 m e) := by
  unfold UnpackedFloat.ofScientific
  split
  · nofun
  · split
    · nofun
    · split
      · nofun
      · split
        · exact not_isMinus_mul nofun nofun
        · exact not_isMinus_roundWithAccuracy _ _ _

theorem not_isMinus_ofNat (n : Nat) : ¬IsMinus (TimeValue.ofNat n : Float).toModel.unpack := by
  show ¬IsMinus (Float.ofScientific n false 0).toModel.unpack
  unfold Float.ofScientific
  split
  · have hone : ¬IsMinus (Float.ofBits 0x3FF0000000000000).toModel.unpack :=
      not_isMinus_unpack_pack (not_isMinus_unpack (by decide))
    have hsmall : ¬IsMinus n.toUInt64.toFloat.toModel.unpack :=
      not_isMinus_unpack_pack (not_isMinus_normalize (Int.natCast_nonneg _) _)
    exact not_isMinus_unpack_pack (not_isMinus_mul hsmall hone)
  · exact not_isMinus_unpack_pack (not_isMinus_ofScientific n 0)

theorem unpack_add (a b : Float) : (a + b).toModel.unpack =
    unpack .binary64 (pack .binary64 (add .binary64 a.toModel.unpack b.toModel.unpack)) := rfl

instance : RoundedTime Float where
  not_zero_le {a} h hle := by
    have hplace : HasPlace a.toBits.toNat a.toModel.unpack :=
      hasPlace_unpack (zero_notLater_iff.mp hle)
    exact hplace.ne_notANumber (isUndefined_iff.mp h)
  undefined_add {a} b h := by
    have hadd (g : UnpackedFloat) : add .binary64 .notANumber g = .notANumber := by
      cases g <;> rfl
    rw [isUndefined_iff] at h ⊢
    rw [unpack_add, h, hadd]
    exact unpack_packedNaN
  amount_ofNat n := isAmount_iff.mpr (.of_not_isMinus (not_isMinus_ofNat n))
  amount_add ha hb := isAmount_iff.mpr ((isAmount_iff.mp ha).add (isAmount_iff.mp hb)).unpack_pack
  amount_mul ha hb := isAmount_iff.mpr ((isAmount_iff.mp ha).mul (isAmount_iff.mp hb)).unpack_pack
  amount_div n ha := isAmount_iff.mpr ((isAmount_iff.mp ha).div (not_isMinus_ofNat n)).unpack_pack
  le_add {a b} ha hb := by
    rw [zero_notLater_iff] at ha
    have hstart : HasPlace a.toBits.toNat a.toModel.unpack := hasPlace_unpack ha
    obtain ⟨k, hk, hplace⟩ | hundefined :=
      hstart.add (by exact_mod_cast ha) (isAmount_iff.mp hb) (isWritten_unpack _)
    · have hbits : ((a + b).toBits.toNat : Int) = min k infinityBits := hplace.toNat_pack
      left
      rw [notLater_iff, orderKey_eq_toNat ha, orderKey_eq_toNat (by omega), hbits]
      omega
    · right
      rw [isUndefined_iff, unpack_add, hundefined]
      exact unpack_packedNaN

end Binary64

end ScorePlayback
