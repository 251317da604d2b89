import ScorePlayback.Decimal.Power

/-! # The values of binary floating-point numbers

A finite double is a sign, a mantissa and an exponent of two. All decimal texts
of a double are worked out from these in whole numbers. -/

namespace ScorePlayback

/-- What a double stands for. A finite one is `± mantissa · 2 ^ exponent`, where the
mantissa is below 2⁵³ and the exponent is the least that allows it. -/
inductive Binary64 where
  | finite (negative : Bool) (mantissa : Nat) (exponent : Int)
  | infinite (negative : Bool)
  | nan
deriving DecidableEq, Repr

namespace Binary64

def ofBits (bits : Nat) : Binary64 :=
  let negative := bits / twoTo 63 % 2 == 1
  let field : Nat := bits / twoTo 52 % twoTo 11
  let fraction : Nat := bits % twoTo 52
  if field = 2047 then
    if fraction = 0 then .infinite negative else .nan
  else if field = 0 then .finite negative fraction (-1074)
  else .finite negative (twoTo 52 + fraction) ((field : Int) - 1075)

def ofFloat (x : Float) : Binary64 := ofBits x.toBits.toNat

/-- The place of a double among all of them: by sign and size, minus zero below zero,
and what is not a number below everything. -/
def orderKey (x : Float) : Int :=
  let bits := x.toBits.toNat
  if ofBits bits = .nan then -(twoTo 64 : Int)
  else if bits < twoTo 63 then bits
  else (twoTo 63 : Int) - 1 - (bits : Int)

end Binary64

/-- The whole number nearest to a quotient; of two that are equally near, the even one. -/
def divHalfEven (num den : Nat) : Nat :=
  let quotient := num / den
  match compare (2 * (num % den)) den with
  | .lt => quotient
  | .gt => quotient + 1
  | .eq => quotient + quotient % 2

end ScorePlayback
