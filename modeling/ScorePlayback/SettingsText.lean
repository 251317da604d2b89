import ScorePlayback.Numeral
import ScorePlayback.Settings
import ScorePlayback.Text.Blank
import ScorePlayback.Yaml.FlatMapping

/-! # Settings as a text

A flat YAML mapping. Every key is optional and may be given once; a null stands for the
default. -/

namespace ScorePlayback

inductive SettingsError where
  /-- The text is not a mapping of the known keys to values of their types. -/
  | malformed
  | noRepeat
  | programTooLarge
  | channelTooLarge
deriving DecidableEq, Repr

def SettingsError.message : SettingsError → String
  | .malformed => "Invalid configuration: not a mapping of settings"
  | .noRepeat => "Invalid configuration: default-repeat-times must be at least 1"
  | .programTooLarge => "Invalid configuration: default-program must be in 0..128"
  | .channelTooLarge => "Invalid configuration: default-channel must be in 0..16"

/-! ## Values -/

namespace YamlScalar

def isNullText (text : String) : Bool := ["null", "Null", "NULL", "~"].contains text

def nullTag : String := "tag:yaml.org,2002:null"

def boolTag : String := "tag:yaml.org,2002:bool"

def countTag : String := "tag:yaml.org,2002:int"

/-- A value that is present is `some`; of a scalar that cannot be read there is nothing. A plain
scalar can be a null if it has no tag and must be one if it has the tag of nulls; its other tags
do not matter. A literal scalar needs the tag of the type. -/
def value? (s : YamlScalar) (typeTag : String) (read? : String → Option α) : Option (Option α) :=
  match s.style, s.tag with
  | .plain, none =>
    if s.text = "" || isNullText s.text then some none else (read? s.text).map some
  | .plain, some tag =>
    if tag ≠ nullTag then (read? s.text).map some
    else if isNullText s.text then some none
    else none
  | .literal, some tag => if tag = typeTag then (read? s.text).map some else none
  | _, _ => none

def bool? (text : String) : Option Bool :=
  if ["true", "True", "TRUE"].contains text then some true
  else if ["false", "False", "FALSE"].contains text then some false
  else none

/-- Reads a number without a sign: decimal, or in base 16, 8 or 2 behind `0x`, `0o` or `0b`. A
decimal number of several digits does not start with a zero. -/
def unsigned? : List Char → Option Nat
  | '0' :: 'x' :: digits => Numeral.inBase? 16 digits
  | '0' :: 'o' :: digits => Numeral.inBase? 8 digits
  | '0' :: 'b' :: digits => Numeral.inBase? 2 digits
  | '0' :: _ :: _ => none
  | digits => Numeral.inBase? 10 digits

/-- Reads a count up to `limit`. A plus sign in front is allowed. -/
def count? (limit : Nat) (text : String) : Option Nat :=
  (match text.toList with
    | '+' :: digits => unsigned? digits
    | digits => unsigned? digits).filter (· ≤ limit)

end YamlScalar

/-! ## Keys -/

/-- The settings that a text gives. -/
structure GivenSettings where
  autoBeam : Option Bool := none
  legacySyntax : Option Bool := none
  repeatTimes : Option Nat := none
  program : Option Nat := none
  channel : Option Nat := none

namespace GivenSettings

def add? (g : GivenSettings) (entry : String × YamlScalar) : Option GivenSettings :=
  let (key, scalar) := entry
  let bool? := scalar.value? YamlScalar.boolTag YamlScalar.bool?
  let count? limit := scalar.value? YamlScalar.countTag (YamlScalar.count? limit)
  match key with
  | "auto-beam" => bool?.map fun v => { g with autoBeam := v }
  | "legacy-syntax" => bool?.map fun v => { g with legacySyntax := v }
  | "default-repeat-times" => (count? Numeral.largest32).map fun v => { g with repeatTimes := v }
  | "default-program" => (count? 255).map fun v => { g with program := v }
  | "default-channel" => (count? 255).map fun v => { g with channel := v }
  | _ => none

def complete (g : GivenSettings) : Settings :=
  let defaults : Settings := {}
  { autoBeam := g.autoBeam.getD defaults.autoBeam
    legacySyntax := g.legacySyntax.getD defaults.legacySyntax
    repeatTimes := g.repeatTimes.getD defaults.repeatTimes
    program := g.program.getD defaults.program
    channel := g.channel.getD defaults.channel }

end GivenSettings

namespace Settings

def hasRepeatedKey : List String → Bool
  | [] => false
  | key :: rest => rest.contains key || hasRepeatedKey rest

def ofEntries? (entries : YamlEntries) : Option Settings :=
  if hasRepeatedKey (entries.map Prod.fst) then none
  else (entries.foldlM GivenSettings.add? {}).map GivenSettings.complete

/-- Checks the limits of MIDI. -/
def check (s : Settings) : Except SettingsError Settings :=
  if s.repeatTimes = 0 then .error .noRepeat
  else if 127 < s.program then .error .programTooLarge
  else if 15 < s.channel then .error .channelTooLarge
  else .ok s

/-- Reads settings. A blank text gives the defaults. -/
def read (text : String) : Except SettingsError Settings :=
  let entries := if text.toList.all isBlank then some [] else readFlatMapping? text.toList
  match entries.bind ofEntries? with
  | some settings => settings.check
  | none => .error .malformed

end Settings
end ScorePlayback
