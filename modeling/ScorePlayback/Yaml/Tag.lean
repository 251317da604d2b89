import ScorePlayback.Numeral
import ScorePlayback.Yaml.Token

/-! # YAML tags

A tag is an address, written in full between angle brackets or behind a handle that stands for
its first part. -/

namespace ScorePlayback
namespace TagAddress

/-- What an address can hold. `isWhole` allows the marks that would end a shortened tag. -/
def isChar (isWhole : Bool) (c : Char) : Bool :=
  YamlChar.isName c
    || [';', '/', '?', ':', '@', '&', '=', '+', '$', '.', '!', '~', '*', '\x27', '(', ')'].contains c
    || (isWhole && [',', '[', ']'].contains c)

/-- How many octets follow the first octet of an encoded character. -/
def following? (octet : Nat) : Option Nat :=
  if octet < 0x80 then some 0
  else if octet < 0xC0 then none
  else if octet < 0xE0 then some 1
  else if octet < 0xF0 then some 2
  else if octet < 0xF8 then some 3
  else none

/-- How many octets must still come behind `octet` if `owed` of them had to come with it. -/
def owedAfter? (owed octet : Nat) : Option Nat :=
  match owed with
  | 0 => following? octet
  | owed + 1 => if 0x80 ≤ octet && octet < 0xC0 then some owed else none

/-- Reads the octets of an address. A percent sign and two hexadecimal digits stand for an octet,
and such octets make up whole characters. Each octet becomes the character of its number. -/
def octets? (isWhole : Bool) (owed : Nat) : List Char → Option (List Char)
  | [] => if owed = 0 then some [] else none
  | '%' :: high :: low :: rest => do
    let octet ← Numeral.inBase? 16 [high, low]
    let owed ← owedAfter? owed octet
    (octets? isWhole owed rest).map (Char.ofNat octet :: ·)
  | c :: rest =>
    if owed = 0 && isChar isWhole c then (octets? isWhole 0 rest).map (c :: ·) else none

/-- Reads an address. It ends before a null character. -/
def read? (isWhole : Bool) (text : List Char) : Option String :=
  (octets? isWhole 0 text).map fun octets => String.ofList (octets.takeWhile (· ≠ '\x00'))

end TagAddress

namespace YamlTag

/-- The tag that is only an exclamation mark. -/
def bare : YamlTag := ⟨"", "!"⟩

/-- Reads the suffix behind a handle of two exclamation marks. -/
def shortened? (handle : String) (suffix : List Char) : Option YamlTag :=
  if suffix.isEmpty then none else (TagAddress.read? false suffix).map (⟨handle, ·⟩)

/-- Reads a tag: `!<address>`, `!name!suffix`, `!!suffix` or `!suffix`. -/
def ofText? : List Char → Option YamlTag
  | '!' :: '<' :: rest =>
    if rest.getLast? = some '>' && 1 < rest.length then
      (TagAddress.read? true rest.dropLast).map (⟨"", ·⟩)
    else none
  | '!' :: rest =>
    match rest.dropWhile YamlChar.isName with
    | '!' :: suffix =>
      shortened? (String.ofList ('!' :: rest.takeWhile YamlChar.isName ++ ['!'])) suffix
    | _ =>
      (TagAddress.read? false rest).map fun suffix =>
        if suffix = "" then bare else ⟨"!", suffix⟩
  | _ => none

/-- Whether the text of a tag lacks the bracket that ends its address. A comma belongs to it. -/
def isOpen (text : List Char) : Bool := text.take 2 = ['!', '<'] && !text.contains '>'

/-- A handle is `!`, `!!` or `!name!`. -/
def isHandle : List Char → Bool
  | '!' :: rest => rest.isEmpty || rest.dropWhile YamlChar.isName = ['!']
  | _ => false

end YamlTag
end ScorePlayback
