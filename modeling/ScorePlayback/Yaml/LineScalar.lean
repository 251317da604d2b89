import ScorePlayback.Yaml.Token

/-! # Scalars on a line of their own

A header, which is a bar or a greater-than sign and what follows it, announces the line. -/

namespace ScorePlayback

structure LineScalar where
  style : YamlStyle
  /-- The line break behind the text does not belong to it. -/
  strips : Bool := false
  /-- The column of the text, if the header gives it. -/
  column : Option Nat := none
deriving DecidableEq, Repr

namespace LineScalar

/-- Reads the sign of a header: a minus strips the line break and a plus keeps it. -/
def sign? (header : LineScalar) (c : Char) : Option LineScalar :=
  if c = '-' then some { header with strips := true } else if c = '+' then some header else none

/-- Reads the digit of a header, which counts columns from `base`. -/
def digit? (header : LineScalar) (base : Nat) (c : Char) : Option LineScalar :=
  if '1' ≤ c && c ≤ '9' then some { header with column := some (base + (c.toNat - '0'.toNat)) }
  else none

/-- Reads a header without its first character: at most one sign and one digit in either order. -/
def ofText? (style : YamlStyle) (base : Nat) (text : List Char) : Option LineScalar :=
  let isMark c := !YamlChar.isSpace c && c ≠ '#'
  let header : LineScalar := { style }
  if YamlChar.isLineEnd (text.dropWhile isMark) then
    match text.takeWhile isMark with
    | [] => some header
    | [c] => (header.sign? c).or (header.digit? base c)
    | [c, d] =>
      ((header.sign? c).bind (digit? · base d)).or ((header.digit? base c).bind (sign? · d))
    | _ => none
  else none

end LineScalar
end ScorePlayback
