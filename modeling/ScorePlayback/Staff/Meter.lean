import ScorePlayback.Time

/-! # Time signatures -/

namespace ScorePlayback

structure Meter where
  top : Nat
  bottom : Nat
deriving DecidableEq, Repr

namespace Meter

def isCompound (m : Meter) : Bool := 3 < m.top && m.top % 3 = 0

/-- Beats per measure; a compound meter counts dotted beats. -/
def pulses (m : Meter) : Nat := if m.isCompound then m.top / 3 else m.top

def measureDuration {τ : Type} [TimeValue τ] (m : Meter) : τ :=
  TimeValue.ofNat m.top * TimeValue.ofNat 256 / TimeValue.ofNat m.bottom

end Meter
end ScorePlayback
