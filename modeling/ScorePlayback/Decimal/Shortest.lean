import ScorePlayback.Decimal.Binary64

/-! # The fewest digits that identify a double

Every real number in the interval around a double reads back to that double. The
text of a double takes the coarsest decimal grid with a point in this interval, and
of two such neighbours the nearer one. All comparisons are in whole numbers. -/

namespace ScorePlayback

/-- The decimal number `digits · 10 ^ exponent`. -/
structure DecimalValue where
  digits : Nat
  exponent : Int
deriving DecidableEq, Repr

namespace DecimalValue

def places (n : Nat) : Nat := (Nat.toDigits 10 n).length

/-- The exponent of the leading digit. -/
def leading (d : DecimalValue) : Int := d.exponent + places d.digits - 1

/-- Moves the zeros at the end of the digits into the exponent. -/
def stripZeros : Nat → DecimalValue → DecimalValue
  | 0, d => d
  | fuel + 1, d =>
    if d.digits ≠ 0 && d.digits % 10 = 0 then stripZeros fuel ⟨d.digits / 10, d.exponent + 1⟩ else d

end DecimalValue

/-! ## The interval of a double -/

/-- The real numbers that read back to `mantissa · 2 ^ exponent`, in quarters of
`2 ^ exponent`. Its ends belong to it when the mantissa is even. -/
structure Interval where
  low : Nat
  middle : Nat
  high : Nat
  closed : Bool
  exponent : Int

/-- Below a power of two the doubles lie twice as close as above it. -/
def Interval.around (mantissa : Nat) (exponent : Int) : Interval where
  low := if mantissa = twoTo 52 && exponent ≠ -1074 then 4 * mantissa - 1 else 4 * mantissa - 2
  middle := 4 * mantissa
  high := 4 * mantissa + 2
  closed := mantissa % 2 = 0
  exponent := exponent - 2

namespace Interval

/-- A step of the grid `10 ^ k`, as a fraction of the unit in which an interval is given. -/
def gridStep (i : Interval) (k : Int) : Nat × Nat :=
  (tenTo k.toNat * twoTo (-i.exponent).toNat, tenTo (-k).toNat * twoTo i.exponent.toNat)

def contains (i : Interval) (k : Int) (digits : Nat) : Bool :=
  let (num, den) := i.gridStep k
  let point := digits * num
  if i.closed then i.low * den ≤ point && point ≤ i.high * den
  else i.low * den < point && point < i.high * den

/-- The point of a grid that stands for the double: the nearer of the two neighbours
of the exact value, if it reads back. -/
def pointOn? (i : Interval) (k : Int) : Option DecimalValue :=
  let (num, den) := i.gridStep k
  let below := i.middle * den / num
  match i.contains k below, i.contains k (below + 1) with
  | true, true => some ⟨divHalfEven (i.middle * den) num, k⟩
  | true, false => some ⟨below, k⟩
  | false, true => some ⟨below + 1, k⟩
  | false, false => none

/-- The exponent of the leading digit of the exact value. -/
def leading (i : Interval) : Int :=
  let num := i.middle * twoTo i.exponent.toNat
  let den := twoTo (-i.exponent).toNat
  if den ≤ num then (DecimalValue.places (num / den) : Int) - 1
  else
    let n := DecimalValue.places (den / num)
    if den ≤ num * tenTo (n - 1) then 1 - (n : Int) else -(n : Int)

/-- Seventeen digits always suffice, so the search tries as many grids and one more. -/
def shortest (i : Interval) : DecimalValue :=
  let grids := (List.range 18).map fun (n : Nat) => i.leading - n
  let found := (grids.findSome? i.pointOn?).getD ⟨0, 0⟩
  DecimalValue.stripZeros 20 found

end Interval

/-! ## Layout -/

/-- How a decimal number is laid out. -/
structure Layout where
  /-- The exponents of the leading digit from `plainFrom` to `plainTo` are written without
  an exponent. -/
  plainFrom : Option Int
  plainTo : Option Int
  /-- A whole number ends in `.0`. -/
  pointZero : Bool
  infinity : String
  nan : String

namespace Layout

def isPlain (l : Layout) (leading : Int) : Bool :=
  l.plainFrom.all (· ≤ leading) && l.plainTo.all (leading ≤ ·)

def zeros (n : Nat) : List Char := List.replicate n '0'

/-- The digits of a number with the point where it belongs. -/
def plain (l : Layout) (digits : List Char) (exponent : Int) : List Char :=
  let point := (digits.length : Int) + exponent
  if 0 ≤ exponent then digits ++ zeros exponent.toNat ++ (if l.pointZero then ['.', '0'] else [])
  else if 0 < point then digits.take point.toNat ++ '.' :: digits.drop point.toNat
  else '0' :: '.' :: (zeros (-point).toNat ++ digits)

/-- One digit before the point, and an exponent. -/
def withExponent (digits : List Char) (leading : Int) : List Char :=
  let mantissa := match digits with
    | first :: second :: rest => first :: '.' :: second :: rest
    | digits => digits
  mantissa ++ 'e' :: (toString leading).toList

def decimal (l : Layout) (d : DecimalValue) : List Char :=
  let digits := Nat.toDigits 10 d.digits
  if d.digits = 0 || l.isPlain d.leading then l.plain digits d.exponent
  else withExponent digits d.leading

def sign (negative : Bool) (text : String) : String := if negative then "-" ++ text else text

/-- The text of a double. -/
def text (l : Layout) (x : Float) : String :=
  match Binary64.ofFloat x with
  | .nan => l.nan
  | .infinite negative => sign negative l.infinity
  | .finite negative 0 _ => sign negative (String.ofList (l.decimal ⟨0, 0⟩))
  | .finite negative mantissa exponent =>
    sign negative (String.ofList (l.decimal (Interval.around mantissa exponent).shortest))

end Layout
end ScorePlayback
