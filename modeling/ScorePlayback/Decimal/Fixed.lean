import ScorePlayback.Decimal.Binary64

/-! # Decimal texts with a fixed number of places

The exact value of a double is rounded; a half goes to the even neighbour. -/

namespace ScorePlayback

/-- A text padded with blanks in front. -/
def padLeft (width : Nat) (text : String) : String :=
  String.ofList (List.replicate (width - text.length) ' ' ++ text.toList)

/-- A text padded with blanks behind. -/
def padRight (width : Nat) (text : String) : String :=
  String.ofList (text.toList ++ List.replicate (width - text.length) ' ')

namespace Fixed

/-- A whole number of units of the last place, written with that many places. -/
def render (places units : Nat) : String :=
  let fraction := Nat.toDigits 10 (units % tenTo places)
  toString (units / tenTo places) ++ "." ++
    String.ofList (List.replicate (places - fraction.length) '0' ++ fraction)

/-- The value `mantissa · 2 ^ exponent` in units of the last place. -/
def units (places mantissa : Nat) (exponent : Int) : Nat :=
  divHalfEven (mantissa * twoTo exponent.toNat * tenTo places) (twoTo (-exponent).toNat)

def text (places : Nat) (x : Float) : String :=
  match Binary64.ofFloat x with
  | .nan => "NaN"
  | .infinite negative => if negative then "-inf" else "inf"
  | .finite negative mantissa exponent =>
    (if negative then "-" else "") ++ render places (units places mantissa exponent)

end Fixed
end ScorePlayback
