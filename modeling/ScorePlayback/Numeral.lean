/-! # Numerals

Whole numbers and decimal numbers written with ASCII digits. -/

namespace ScorePlayback.Numeral

/-- The largest number of 32 bits. -/
def largest32 : Nat := 0xFFFFFFFF

/-- The largest integer of 64 bits. -/
def largest64 : Int := 0x7FFFFFFFFFFFFFFF

/-- The least integer of 64 bits. -/
def least64 : Int := -0x8000000000000000

def digitValue (c : Char) : Nat := c.toNat - '0'.toNat

/-- The number that a string of digits stands for, most significant digit first. -/
def ofDigits (digits : List Char) : Nat :=
  digits.foldl (fun n c => 10 * n + digitValue c) 0

/-- Reads one or more digits. -/
def natural? (text : List Char) : Option Nat :=
  if !text.isEmpty && text.all Char.isDigit then some (ofDigits text) else none

/-- The value of a digit in a base of up to 16. -/
def digit? (base : Nat) (c : Char) : Option Nat :=
  let value :=
    if c.isDigit then digitValue c
    else if 'a' ≤ c && c ≤ 'f' then c.toNat - 'a'.toNat + 10
    else if 'A' ≤ c && c ≤ 'F' then c.toNat - 'A'.toNat + 10
    else base
  if value < base then some value else none

/-- Reads one or more digits in a base of up to 16. -/
def inBase? (base : Nat) (digits : List Char) : Option Nat :=
  if digits.isEmpty then none
  else digits.foldlM (fun n c => (digit? base c).map fun d => base * n + d) 0

/-- Reads a count up to `limit`. A plus sign in front is allowed. -/
def upTo? (limit : Nat) (text : List Char) : Option Nat :=
  (match text with
    | '+' :: digits => natural? digits
    | digits => natural? digits).filter (· ≤ limit)

/-- Reads an integer, with or without a sign. -/
def integer? : List Char → Option Int
  | '+' :: digits => (natural? digits).map Int.ofNat
  | '-' :: digits => (natural? digits).map fun n => -Int.ofNat n
  | digits => (natural? digits).map Int.ofNat

/-- Reads an integer between `low` and `high`. -/
def within? (low high : Int) (text : List Char) : Option Int :=
  (integer? text).filter fun n => low ≤ n && n ≤ high

/-- The decimal number `mantissa · 10 ^ exponent`. -/
structure Scientific where
  mantissa : Int
  exponent : Int
deriving DecidableEq, Repr

/-- Reads the exponent of a decimal number, `e` or `E` and an integer, where nothing is zero. -/
def exponent? : List Char → Option Int
  | [] => some 0
  | c :: rest => if c = 'e' || c = 'E' then integer? rest else none

def unsignedScientific? (text : List Char) : Option Scientific :=
  let whole := text.takeWhile Char.isDigit
  let rest := text.dropWhile Char.isDigit
  let fraction := match rest with
    | '.' :: rest => rest.takeWhile Char.isDigit
    | _ => []
  let rest := match rest with
    | '.' :: rest => rest.dropWhile Char.isDigit
    | rest => rest
  if whole.isEmpty then none
  else (exponent? rest).map fun e => ⟨ofDigits (whole ++ fraction), e - fraction.length⟩

/-- Reads a decimal number: digits, perhaps a point and more digits, perhaps an exponent,
and perhaps a minus sign before all of it. -/
def scientific? : List Char → Option Scientific
  | '-' :: text => (unsignedScientific? text).map fun n => { n with mantissa := -n.mantissa }
  | text => unsignedScientific? text

end ScorePlayback.Numeral
