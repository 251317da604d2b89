import ScorePlayback.Decimal.Power
import ScorePlayback.Time

/-! # Exact time

Rational numbers measure time without rounding. -/

namespace ScorePlayback

/-- The power of ten with any integer exponent. -/
def decimalScale : Int → Rat
  | .ofNat n => tenTo n
  | .negSucc n => 1 / (tenTo (n + 1) : Rat)

instance : TimeValue Rat where
  ofNat n := n
  ofDecimal m e := m * decimalScale e
  le a b := decide (a ≤ b)
  later a b := if a ≤ b then b else a
  compare a b := if a < b then .lt else if a = b then .eq else .gt

end ScorePlayback
