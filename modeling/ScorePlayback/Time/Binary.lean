import ScorePlayback.Time
import ScorePlayback.Decimal.Binary64

/-! # Time in doubles

Playback measures time with double precision. A value that is not a number never
moves a maximum and sorts before all others. Of the two zeros the positive one is
the later one. -/

namespace ScorePlayback

/-- The double nearest to `m · 10 ^ e`. Numbers far outside the range of doubles are
settled by their size alone, so that no huge power of ten is formed. -/
def magnitude (m : Nat) (e : Int) : Float :=
  let size := e + (Nat.toDigits 10 m).length
  if m = 0 || size < -400 then 0.0
  else if 400 < size then 1.0 / 0.0
  else Float.ofScientific m (e < 0) e.natAbs

instance : TimeValue Float where
  ofNat := Float.ofNat
  ofDecimal m e := if m < 0 then -magnitude m.natAbs e else magnitude m.natAbs e
  le a b := decide (a ≤ b)
  later a b := if Binary64.orderKey a < Binary64.orderKey b then b else a
  compare a b := compare (Binary64.orderKey a) (Binary64.orderKey b)

end ScorePlayback
