/-! # Measuring time

Times and durations are counted in units of which a quarter note has 64. The
numbers they are measured with are a parameter: binary floating point for
playback, exact rationals where a law of time does not survive rounding. -/

namespace ScorePlayback

/-- Numbers that can measure time. `compare` orders all of them, so it can sort
even where `le` leaves two values unrelated. -/
class TimeValue (τ : Type) extends Add τ, Sub τ, Mul τ, Div τ where
  ofNat : Nat → τ
  /-- `ofDecimal m e` is `m · 10 ^ e`, or the closest number there is. -/
  ofDecimal : Int → Int → τ
  le : τ → τ → Bool
  later : τ → τ → τ
  compare : τ → τ → Ordering

namespace TimeValue

variable {τ : Type} [TimeValue τ]

def zero : τ := ofNat 0

/-- The product starts at one and multiplies from left to right. -/
def product (factors : List τ) : τ := factors.foldl (· * ·) (ofNat 1)

/-- A note or rest's place among objects that share its time stamp is decided by
its voice, so both together order a timeline. -/
def notAfter (time : α → τ) (rank : α → Nat) (a b : α) : Bool :=
  match compare (time a) (time b) with
  | .lt => true
  | .eq => rank a ≤ rank b
  | .gt => false

end TimeValue
end ScorePlayback
